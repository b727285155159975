/-!
# Object ids

One counter numbers the ids of a session.  An object id is the stem and the
number; an `about` id is an object id after a `#`.
-/

namespace WikiExpansion

/-- Where ids come from: the stem they share and the number of the next one. -/
structure IdSource where
  stem : String := "mwt"
  next : Nat := 1
deriving DecidableEq, Inhabited

namespace IdSource

def objectId (s : IdSource) (n : Nat) : String := s.stem ++ toString n

def newObjectId (s : IdSource) : String × IdSource :=
  (s.objectId s.next, { s with next := s.next + 1 })

def newAboutId (s : IdSource) : String × IdSource :=
  ("#" ++ s.newObjectId.1, s.newObjectId.2)

end IdSource

end WikiExpansion
