import TypeTheory.Level.Basic

/-!
# Terms

Terms of the theory use de Bruijn indices for bound variables; named free
variables stand for the variables of a section until they are abstracted. The
three binding forms that pair a type with a body share one constructor, and so
do the two projections.

Every node carries three facts computed when it is built: `Term.looseRange`,
one more than the largest index that escapes the node, `Term.wordRange`, the
same as it is reported in words, and `Term.hash`. The range lets substitution
skip closed parts and tells which terms may be memoized.

Terms are graphs in memory: a definition that is used twice is one node with
two parents, so a short chain of definitions stands for a very large tree. No
fact above costs more than its own node, and equality is decided with an
address test and a hash test at every node: shared parts are equal at once and
parts with different hashes differ at once.
-/

namespace TypeTheory

/-- The largest machine word. -/
def maxWord : Nat :=
  0xFFFFFFFFFFFFFFFF

/-- The forms that bind one variable of a given type in a body. -/
inductive Binder where
  | lam
  | pi
  | sigma
  deriving DecidableEq, Inhabited, Repr

/-- The two components of a pair. -/
inductive Side where
  | fst
  | snd
  deriving DecidableEq, Inhabited, Repr

/-- The word that stands for a binding form in a hash. -/
def Binder.hashTag : Binder → UInt64
  | .lam => 47
  | .pi => 53
  | .sigma => 59

/-- The word that stands for a projection in a hash. -/
def Side.hashTag : Side → UInt64
  | .fst => 71
  | .snd => 73

/-- A term. Binders carry a display name that no judgement depends on. -/
inductive Term where
  /-- The variable of the binder `index` levels out. -/
  | bvar (index : Nat)
  /-- A named free variable. -/
  | fvar (name : Name)
  | sort (level : Level)
  /-- A constant at the given universe levels. -/
  | const (name : Name) (levels : List Level)
  | app (fn arg : Term)
  /-- A function, a dependent function type or a dependent pair type. -/
  | bind (binder : Binder) (name : Name) (type body : Term)
  /-- A local definition: name, type, value, body. -/
  | letE (name : Name) (type value body : Term)
  | pair (fst snd : Term)
  | proj (side : Side) (target : Term)
with
  /-- One more than the largest index that escapes the term; zero when the term
  is closed. -/
  @[computed_field] looseRange : Term → Nat
    | .bvar i => i + 1
    | .fvar _ => 0
    | .sort _ => 0
    | .const .. => 0
    | .app f a => Nat.max f.looseRange a.looseRange
    | .bind _ _ t b => Nat.max t.looseRange (b.looseRange - 1)
    | .letE _ t v b => Nat.max (Nat.max t.looseRange (b.looseRange - 1)) v.looseRange
    | .pair a b => Nat.max a.looseRange b.looseRange
    | .proj _ p => p.looseRange
  /-- The loose range of a term, saturating at the largest word. -/
  @[computed_field] wordRange : Term → Nat
    | .bvar i => Nat.min (i + 1) maxWord
    | .fvar _ => 0
    | .sort _ => 0
    | .const .. => 0
    | .app f a => Nat.max f.wordRange a.wordRange
    | .bind _ _ t b => Nat.max t.wordRange (b.wordRange - 1)
    | .letE _ t v b => Nat.max (Nat.max t.wordRange (b.wordRange - 1)) v.wordRange
    | .pair a b => Nat.max a.wordRange b.wordRange
    | .proj _ p => p.wordRange
  /-- A hash that does not look at display names. -/
  @[computed_field] hash : Term → UInt64
    | .bvar i => mixWords 29 i.toUInt64
    | .fvar n => mixWords 31 n.hash
    | .sort l => mixWords 37 l.hash
    | .const n ls => mixWords (mixWords 41 n.hash) (Level.listHash ls)
    | .app f a => mixWords (mixWords 43 f.hash) a.hash
    | .bind k _ t b => mixWords (mixWords k.hashTag t.hash) b.hash
    | .letE _ t v b => mixWords (mixWords (mixWords 61 t.hash) v.hash) b.hash
    | .pair a b => mixWords (mixWords 67 a.hash) b.hash
    | .proj k p => mixWords k.hashTag p.hash
  deriving Inhabited, Repr

namespace Term

instance : Hashable Term := ⟨Term.hash⟩

/-! ## The binding forms and projections by name -/

/-- The function that binds `name : type` in `body`. -/
@[match_pattern] abbrev lam (name : Name) (type body : Term) : Term :=
  .bind .lam name type body

/-- The dependent function type over `name : type`. -/
@[match_pattern] abbrev pi (name : Name) (type body : Term) : Term :=
  .bind .pi name type body

/-- The dependent pair type over `name : type`. -/
@[match_pattern] abbrev sigma (name : Name) (type body : Term) : Term :=
  .bind .sigma name type body

/-- The first component of a pair. -/
@[match_pattern] abbrev proj1 (target : Term) : Term :=
  .proj .fst target

/-- The second component of a pair. -/
@[match_pattern] abbrev proj2 (target : Term) : Term :=
  .proj .snd target

/-- Whether some index escapes the term. -/
def hasLoose (e : Term) : Bool :=
  0 < e.looseRange

/-! ## Equality -/

/-- Decides a conjunction, looking at the second part only if the first holds. -/
@[inline] def decideBoth {p q : Prop} (first : Decidable p) (second : Unit → Decidable q) :
    Decidable (p ∧ q) :=
  match first with
  | isFalse h => isFalse fun both => h both.1
  | isTrue h => match second () with
    | isFalse h' => isFalse fun both => h' both.2
    | isTrue h' => isTrue ⟨h, h'⟩

/-- Decides what cannot hold of two terms with different hashes. -/
@[inline] def decideByHash {p : Prop} (a b : Term) (hash_eq : p → a.hash = b.hash)
    (compare : Unit → Decidable p) : Decidable p :=
  if h : a.hash = b.hash then compare () else isFalse fun holds => h (hash_eq holds)

/-- Decides equality, by address and by hash where it can. -/
protected def decEq (a b : Term) : Decidable (a = b) :=
  withPtrEqDecEq a b fun _ => decideByHash a b (congrArg hash) fun _ =>
    match a with
    | .bvar i => match b with
      | .bvar j => decidable_of_iff (i = j) (by simp)
      | .fvar _ | .sort _ | .const .. | .app .. | .bind .. | .letE .. | .pair .. | .proj .. =>
        isFalse nofun
    | .fvar m => match b with
      | .fvar n => decidable_of_iff (m = n) (by simp)
      | .bvar _ | .sort _ | .const .. | .app .. | .bind .. | .letE .. | .pair .. | .proj .. =>
        isFalse nofun
    | .sort l => match b with
      | .sort r => decidable_of_iff (l = r) (by simp)
      | .bvar _ | .fvar _ | .const .. | .app .. | .bind .. | .letE .. | .pair .. | .proj .. =>
        isFalse nofun
    | .const m ls => match b with
      | .const n rs => decidable_of_iff (m = n ∧ ls = rs) (by simp)
      | .bvar _ | .fvar _ | .sort _ | .app .. | .bind .. | .letE .. | .pair .. | .proj .. =>
        isFalse nofun
    | .app f x => match b with
      | .app g y =>
        have := decideBoth (f.decEq g) fun _ => x.decEq y
        decidable_of_iff (f = g ∧ x = y) (by simp)
      | .bvar _ | .fvar _ | .sort _ | .const .. | .bind .. | .letE .. | .pair .. | .proj .. =>
        isFalse nofun
    | .bind k m t x => match b with
      | .bind k' n u y =>
        have := decideBoth (decEq k k') fun _ => decideBoth (decEq m n) fun _ =>
          decideBoth (t.decEq u) fun _ => x.decEq y
        decidable_of_iff (k = k' ∧ m = n ∧ t = u ∧ x = y) (by simp)
      | .bvar _ | .fvar _ | .sort _ | .const .. | .app .. | .letE .. | .pair .. | .proj .. =>
        isFalse nofun
    | .letE m t v x => match b with
      | .letE n u w y =>
        have := decideBoth (decEq m n) fun _ =>
          decideBoth (t.decEq u) fun _ => decideBoth (v.decEq w) fun _ => x.decEq y
        decidable_of_iff (m = n ∧ t = u ∧ v = w ∧ x = y) (by simp)
      | .bvar _ | .fvar _ | .sort _ | .const .. | .app .. | .bind .. | .pair .. | .proj .. =>
        isFalse nofun
    | .pair x y => match b with
      | .pair u v =>
        have := decideBoth (x.decEq u) fun _ => y.decEq v
        decidable_of_iff (x = u ∧ y = v) (by simp)
      | .bvar _ | .fvar _ | .sort _ | .const .. | .app .. | .bind .. | .letE .. | .proj .. =>
        isFalse nofun
    | .proj k x => match b with
      | .proj k' y =>
        have := decideBoth (decEq k k') fun _ => x.decEq y
        decidable_of_iff (k = k' ∧ x = y) (by simp)
      | .bvar _ | .fvar _ | .sort _ | .const .. | .app .. | .bind .. | .letE .. | .pair .. =>
        isFalse nofun

instance : DecidableEq Term := Term.decEq

end Term

end TypeTheory
