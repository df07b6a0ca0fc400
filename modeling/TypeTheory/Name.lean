import TypeTheory.Hashing

/-!
# Hierarchical names

A `Name` is a path of text segments, such as `Nat.add`. It is stored from the
last segment inwards, so extending a name by one segment shares the rest, and
the list of segments from the root outwards is its view (`Name.segments`).

A segment is any text. Only `Name.ofDotted` gives the dot a meaning, so a name
built by `Name.ofSegments` may hold empty segments or segments with dots.
-/

namespace TypeTheory

/-- A hierarchical name: the anonymous name, or a segment under a parent. -/
inductive Name where
  | anonymous
  | str (parent : Name) (segment : String)
  deriving DecidableEq, Inhabited, Repr

namespace Name

/-- A hash of a name. -/
protected def hash : Name → UInt64
  | anonymous => 7
  | str parent segment => mixWords parent.hash (textHash segment)

instance : Hashable Name := ⟨Name.hash⟩

/-! ## Segments -/

/-- The segments of a name in front of a list, root first. -/
def segmentsOnto : Name → List String → List String
  | anonymous, rest => rest
  | str parent segment, rest => segmentsOnto parent (segment :: rest)

/-- The segments of a name, root first. -/
def segments (n : Name) : List String :=
  n.segmentsOnto []

/-- The name `n` extended by the given segments, outermost first. -/
def extend (n : Name) (segments : List String) : Name :=
  segments.foldl str n

/-- The name with the given segments, root first. -/
def ofSegments (segments : List String) : Name :=
  anonymous.extend segments

/-- A name of one segment. -/
def atom (segment : String) : Name :=
  str anonymous segment

/-- Reads a dotted name. Empty segments are skipped, so the empty text is the
anonymous name. -/
def ofDotted (text : String) : Name :=
  ofSegments ((text.splitOn ".").filter (· ≠ ""))

/-- `a` followed by the segments of `b`. -/
def join (a b : Name) : Name :=
  a.extend b.segments

/-- The number of segments. -/
def length : Name → Nat
  | anonymous => 0
  | str parent _ => parent.length + 1

def isAnonymous : Name → Bool
  | anonymous => true
  | str .. => false

/-- The name without its last segment; the anonymous name is its own parent. -/
def parent : Name → Name
  | anonymous => anonymous
  | str parent _ => parent

/-- The last segment, if there is one. -/
def last? : Name → Option String
  | anonymous => none
  | str _ segment => some segment

/-- Whether `a` is `b` or one of its ancestors. -/
def isAncestorOf (a : Name) : Name → Bool
  | anonymous => a = anonymous
  | str parent segment => a = str parent segment || a.isAncestorOf parent

/-- Whether `n` lies strictly below `ns`. -/
def isWithin (n ns : Name) : Bool :=
  n ≠ ns && ns.isAncestorOf n

/-! ## Order and text -/

/-- Names are ordered by parent first, then by last segment; the anonymous name
comes first. -/
def cmp : Name → Name → Ordering
  | anonymous, anonymous => .eq
  | anonymous, str .. => .lt
  | str .., anonymous => .gt
  | str p s, str q t => (cmp p q).then (compare s t)

/-- The dotted text of a name. -/
def text (n : Name) : String :=
  if n.isAnonymous then "[anonymous]" else ".".intercalate n.segments

/-- The text of a name with a leading backquote, as names are written in
diagnostics. -/
def quoted (n : Name) : String :=
  "`" ++ n.text

/-- The text a binder of this name shows: an anonymous binder is a blank. -/
def binderText (n : Name) : String :=
  if n.isAnonymous then "_" else n.text

end Name

end TypeTheory
