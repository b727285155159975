import WikiExpansion.Token.Basic

/-!
# Equality of tokens

Two tokens are equal when they have the same shape and the same texts all the
way down.  The six functions follow the six ways in which tokens nest.
-/

namespace WikiExpansion

mutual

def Token.decEq : (a b : Token) → Decidable (a = b)
  | .opening s, .opening t =>
    match Tag.decEq s t with
    | isTrue h => isTrue (h ▸ rfl)
    | isFalse h => isFalse fun e => h (Token.opening.inj e)
  | .selfClosing s, .selfClosing t =>
    match Tag.decEq s t with
    | isTrue h => isTrue (h ▸ rfl)
    | isFalse h => isFalse fun e => h (Token.selfClosing.inj e)
  | .closing s, .closing t =>
    match Tag.decEq s t with
    | isTrue h => isTrue (h ▸ rfl)
    | isFalse h => isFalse fun e => h (Token.closing.inj e)
  | .marker m, .marker n =>
    match Marker.decEq m n with
    | isTrue h => isTrue (h ▸ rfl)
    | isFalse h => isFalse fun e => h (Token.marker.inj e)
  | .text s, .text t =>
    if h : s = t then isTrue (h ▸ rfl) else isFalse fun e => h (Token.text.inj e)
  | .newline, .newline => isTrue rfl
  | .comment s, .comment t =>
    if h : s = t then isTrue (h ▸ rfl) else isFalse fun e => h (Token.comment.inj e)
  | .opening _, .selfClosing _ | .opening _, .closing _ | .opening _, .marker _
  | .opening _, .text _ | .opening _, .newline | .opening _, .comment _
  | .selfClosing _, .opening _ | .selfClosing _, .closing _ | .selfClosing _, .marker _
  | .selfClosing _, .text _ | .selfClosing _, .newline | .selfClosing _, .comment _
  | .closing _, .opening _ | .closing _, .selfClosing _ | .closing _, .marker _
  | .closing _, .text _ | .closing _, .newline | .closing _, .comment _
  | .marker _, .opening _ | .marker _, .selfClosing _ | .marker _, .closing _
  | .marker _, .text _ | .marker _, .newline | .marker _, .comment _
  | .text _, .opening _ | .text _, .selfClosing _ | .text _, .closing _
  | .text _, .marker _ | .text _, .newline | .text _, .comment _
  | .newline, .opening _ | .newline, .selfClosing _ | .newline, .closing _
  | .newline, .marker _ | .newline, .text _ | .newline, .comment _
  | .comment _, .opening _ | .comment _, .selfClosing _ | .comment _, .closing _
  | .comment _, .marker _ | .comment _, .text _ | .comment _, .newline => isFalse nofun
termination_by structural a => a

def Tag.decEq : (a b : Tag Token) → Decidable (a = b)
  | ⟨n, as, d⟩, ⟨m, bs, e⟩ =>
    match Attribute.decEqList as bs with
    | isTrue h =>
      if h' : n = m ∧ d = e then isTrue (by rw [h, h'.1, h'.2])
      else isFalse fun g => h' ⟨(Tag.mk.inj g).1, (Tag.mk.inj g).2.2⟩
    | isFalse h => isFalse fun g => h (Tag.mk.inj g).2.1
termination_by structural a => a

def Attribute.decEqList : (a b : List (Attribute Token)) → Decidable (a = b)
  | [], [] => isTrue rfl
  | p :: ps, q :: qs =>
    match Attribute.decEq p q with
    | isTrue h =>
      match Attribute.decEqList ps qs with
      | isTrue h' => isTrue (by rw [h, h'])
      | isFalse h' => isFalse fun e => h' (List.cons.inj e).2
    | isFalse h => isFalse fun e => h (List.cons.inj e).1
  | [], _ :: _ | _ :: _, [] => isFalse nofun
termination_by structural a => a

def Attribute.decEq : (a b : Attribute Token) → Decidable (a = b)
  | ⟨k, v, ks, vs, o⟩, ⟨k', v', ks', vs', o'⟩ =>
    match Content.decEq k k' with
    | isTrue h =>
      match Content.decEq v v' with
      | isTrue h' =>
        if h'' : ks = ks' ∧ vs = vs' ∧ o = o' then
          isTrue (by rw [h, h', h''.1, h''.2.1, h''.2.2])
        else isFalse fun e => h'' (Attribute.mk.inj e).2.2
      | isFalse h' => isFalse fun e => h' (Attribute.mk.inj e).2.1
    | isFalse h => isFalse fun e => h (Attribute.mk.inj e).1
termination_by structural a => a

def Marker.decEq : (a b : Marker Token) → Decidable (a = b)
  | ⟨p, t, k, v, x, i⟩, ⟨p', t', k', v', x', i'⟩ =>
    match Content.decEq k k' with
    | isTrue hk =>
      match Content.decEq v v' with
      | isTrue hv =>
        match Content.decEq x x' with
        | isTrue hx =>
          if h : p = p' ∧ t = t' ∧ i = i' then
            isTrue (by rw [hk, hv, hx, h.1, h.2.1, h.2.2])
          else
            isFalse fun e =>
              have g := Marker.mk.inj e
              h ⟨g.1, g.2.1, g.2.2.2.2.2⟩
        | isFalse h => isFalse fun e => h (Marker.mk.inj e).2.2.2.2.1
      | isFalse h => isFalse fun e => h (Marker.mk.inj e).2.2.2.1
    | isFalse h => isFalse fun e => h (Marker.mk.inj e).2.2.1
termination_by structural a => a

def Content.decEq : (a b : Content Token) → Decidable (a = b)
  | .text s, .text t =>
    if h : s = t then isTrue (h ▸ rfl) else isFalse fun e => h (Content.text.inj e)
  | .tokens s, .tokens t =>
    match Token.decEqList s t with
    | isTrue h => isTrue (h ▸ rfl)
    | isFalse h => isFalse fun e => h (Content.tokens.inj e)
  | .text _, .tokens _ | .tokens _, .text _ => isFalse nofun
termination_by structural a => a

def Token.decEqList : (a b : List Token) → Decidable (a = b)
  | [], [] => isTrue rfl
  | p :: ps, q :: qs =>
    match Token.decEq p q with
    | isTrue h =>
      match Token.decEqList ps qs with
      | isTrue h' => isTrue (by rw [h, h'])
      | isFalse h' => isFalse fun e => h' (List.cons.inj e).2
    | isFalse h => isFalse fun e => h (List.cons.inj e).1
  | [], _ :: _ | _ :: _, [] => isFalse nofun
termination_by structural a => a

end

instance : DecidableEq Token := Token.decEq

end WikiExpansion
