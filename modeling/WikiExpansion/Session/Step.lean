import WikiExpansion.Session.Basic

/-!
# One step of a session

`perform` says what each task does.  A token that no handler wants leaves the
pipeline.  The first answer of an invocation is run through the handlers after
it, or is a failure and goes straight to where the tokens would have gone; later
answers change nothing.  Both sides of every pair that holds tokens are expanded,
key first, even if another one has failed by then.
-/

namespace WikiExpansion

namespace Session

variable {σ : Type}

/-- Offers a token to the first handler after a position that wants it. -/
def offer (s : Session σ) (token : Token) (options : Options) (after : Option Position)
    (target : Target) : Session σ :=
  match s.registry.next? after token.kind with
  | none => s.push [.deliver target (.ok [token])]
  | some r =>
    let frame : Frame := ⟨⟨s.invocations.size⟩, r.name, r.position, options⟩
    let invocation : Invocation := ⟨token, options, r.position, target, none⟩
    { s with invocations := s.invocations.push invocation }.push
      [.follow frame (r.handler frame token)]

/-- Starts a stream.  One without tokens is over at once. -/
def beginStream (s : Session σ) (tokens : List Token) (options : Options)
    (after : Option Position) (origin : Option Handle) (target : Target) : Session σ :=
  let stream := s.streams.size
  let s := { s with streams := s.streams.push ⟨tokens, origin, .new tokens.length, target⟩ }
  match Join.atOnce tokens.length with
  | some r => s.push [.deliver target (r.map List.flatten)]
  | none =>
    s.push (tokens.mapIdx fun i token => .offer token options after (.chunk stream i))

/-- Starts to expand an attribute list.  One without pairs is over at once. -/
def beginExpansion (s : Session σ) (attributes : List (Attribute Token)) (options : Options)
    (purpose : Purpose) : Session σ :=
  let n := attributes.length
  let expansion := s.expansions.size
  let e : Expansion := ⟨attributes, options, purpose, List.replicate n (.new 2), .new n⟩
  let s := { s with expansions := s.expansions.push e }
  match Join.atOnce n with
  | some r => s.push [.finish options purpose r]
  | none => s.push ((List.range n).map fun i => .expandPair expansion i)

/-- The pair that two expanded sides make, and the failure of the pair named by
its key where a side failed. -/
def pairOfSides (written : Attribute Token) :
    Outcome (List (Content Token)) → Outcome (Held (Attribute Token))
  | .ok sides => .ok (.own (newAttribute (sides[0]?.getD (.text "")) (sides[1]?.getD (.text ""))))
  | .error cause => .error (.nestedExpansion written.key.plainText cause)

def settleSide (s : Session σ) (expansion index : Nat) (side : Side)
    (r : Outcome (Content Token)) : Session σ :=
  match s.expansions[expansion]? with
  | none => s
  | some e =>
    match e.sides[index]?, e.attributes[index]? with
    | some join, some written =>
      let (join, delivered) := join.fill side.slot r
      let e := { e with sides := e.sides.set index join }
      let s := { s with expansions := s.expansions.setIfInBounds expansion e }
      match delivered with
      | some r => s.push [.settlePair expansion index (pairOfSides written r)]
      | none => s
    | _, _ => s

def settlePair (s : Session σ) (expansion index : Nat) (r : Outcome (Held (Attribute Token))) :
    Session σ :=
  match s.expansions[expansion]? with
  | none => s
  | some e =>
    let (pairs, delivered) := e.pairs.fill index r
    let s := { s with expansions := s.expansions.setIfInBounds expansion { e with pairs := pairs } }
    match delivered with
    | some r => s.push [.finish e.options e.purpose r]
    | none => s

def tokenFailure (token : Token) (cause : ExpansionError) : ExpansionError :=
  match token.tag? with
  | some tag => .tokenFailed tag.name tag.source.range cause
  | none => .tokenFailed "" none cause

/-- Hands on what has become of an attribute list. -/
def finish (s : Session σ) (options : Options) (purpose : Purpose)
    (r : Outcome (List (Held (Attribute Token)))) : Session σ :=
  match purpose with
  | .job n => s.report (.expanded n r)
  | .answer token h =>
    match r with
    | .ok expanded =>
      let (result, ids) := returnAttributes options s.ids token expanded
      { s with ids := ids }.push [.deliver (.handle h) result]
    | .error cause => s.push [.deliver (.handle h) (.error (tokenFailure token cause))]

/-- A pair of plain texts is kept as it is; of any other, both sides are expanded. -/
def expandPair (s : Session σ) (expansion index : Nat) : Session σ :=
  match (s.expansions[expansion]?).bind (·.attributes[index]?) with
  | none => s
  | some a =>
    if a.needsExpansion then
      s.push [.expandSide expansion index .key, .expandSide expansion index .value]
    else s.push [.settlePair expansion index (.ok (.shared a))]

def expandSide (s : Session σ) (expansion index : Nat) (side : Side) : Session σ :=
  match s.expansions[expansion]? with
  | none => s
  | some e =>
    match (e.attributes[index]?).map side.of with
    | none => s
    | some (.text t) => s.push [.settleSide expansion index side (.ok (.text t))]
    | some (.tokens ts) => s.push [.stream ts e.options none none (.side expansion index side)]

/-- Takes an answer: the first one counts. -/
def answer (s : Session σ) (h : Handle) (r : Outcome (List Token)) : Session σ :=
  match s.invocations[h.index]? with
  | none => s
  | some v =>
    if v.answer.isSome then s
    else
      let v' := { v with answer := some r }
      let s := { s with invocations := s.invocations.setIfInBounds h.index v' }
      match r with
      | .ok tokens => s.push [.stream tokens v.options (some v.position) (some h) v.target]
      | .error e => s.push [.deliver v.target (.error e)]

def deliver (s : Session σ) (r : Outcome (List Token)) : Target → Session σ
  | .job n => s.report (.finished n r)
  | .handle h => s.answer h r
  | .callback n =>
    match s.callbacks[n]? with
    | none => s
    | some c => s.push [.follow c.frame (c.script r)]
  | .side expansion index side => s.push [.settleSide expansion index side (r.map .tokens)]
  | .chunk stream index =>
    match s.streams[stream]? with
    | none => s
    | some t =>
      let (join, delivered) := t.join.fill index r
      let s := { s with streams := s.streams.setIfInBounds stream { t with join := join } }
      match delivered with
      | some r => s.push [.deliver t.target (r.map List.flatten)]
      | none => s

/-- Does the first thing a script says and leaves the rest for the next step. -/
def follow (s : Session σ) (frame : Frame) : Script σ → Session σ
  | .answer r => s.push [.deliver (.handle frame.handle) r]
  | .suspend => s
  | .complete h r next =>
    s.push [.deliver (.handle h) r, .follow frame (next !(s.isAnswered h))]
  | .isAnswered h next => s.push [.follow frame (next (s.isAnswered h))]
  | .process tokens options done next =>
    let callback := s.callbacks.size
    { s with callbacks := s.callbacks.push ⟨frame, done⟩ }.push
      [.stream tokens (options.getD s.options) none none (.callback callback), .follow frame next]
  | .expandAttributes token options next =>
    let attributes := (token.tag?.map Tag.attributes).getD []
    s.push [.expand attributes options (.answer token frame.handle), .follow frame next]
  | .newObjectId next =>
    let (id, s) := s.newObjectId
    s.push [.follow frame (next id)]
  | .register name rank filter handler next =>
    (s.register name rank filter handler).push [.follow frame next]
  | .report n next => (s.report n.event).push [.follow frame next]
  | .remember update next =>
    { s with memory := update s.memory }.push [.follow frame (next s.memory)]

def perform (s : Session σ) : Task σ → Session σ
  | .offer token options after target => s.offer token options after target
  | .stream tokens options after origin target => s.beginStream tokens options after origin target
  | .follow frame script => s.follow frame script
  | .deliver target r => s.deliver r target
  | .expand attributes options purpose => s.beginExpansion attributes options purpose
  | .expandPair expansion index => s.expandPair expansion index
  | .expandSide expansion index side => s.expandSide expansion index side
  | .settleSide expansion index side r => s.settleSide expansion index side r
  | .settlePair expansion index r => s.settlePair expansion index r
  | .finish options purpose r => s.finish options purpose r

def step (s : Session σ) : Session σ :=
  match s.agenda with
  | [] => s
  | task :: rest => { s with agenda := rest }.perform task

end Session

end WikiExpansion
