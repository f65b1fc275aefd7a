/-!
# Variables of a scope

A scope knows its variables through a table that interns them: one variable has one identifier, and
identifiers count up from zero in the order of first use.  The table carries the proof that no
variable is listed twice, so looking a variable up and reading an identifier are inverse to each
other (`lookup?_eq_some_iff`).
-/

set_option autoImplicit false

namespace FramePlacement

abbrev VarId := Nat

inductive Variable where
  /-- A local living `depth` scopes outward; depth zero is a local of the scope itself. -/
  | named (name : String) (depth : Nat)
  /-- A temporary, which no nested closure can reach. -/
  | temporary (index : Nat)
deriving DecidableEq, Inhabited

namespace Variable

def isLocal : Variable → Bool
  | named _ _ => true
  | temporary _ => false

def isTemporary : Variable → Bool
  | named _ _ => false
  | temporary _ => true

def name? : Variable → Option String
  | named name _ => some name
  | temporary _ => none

def depth? : Variable → Option Nat
  | named _ depth => some depth
  | temporary _ => none

def isEnclosing : Variable → Bool
  | named _ depth => decide (0 < depth)
  | temporary _ => false

def isOwn : Variable → Bool
  | named _ depth => depth == 0
  | temporary _ => false

/-- A local is written by its name, with its depth when it lives further out. -/
def text : Variable → String
  | named name 0 => "%" ++ name
  | named name depth => "%" ++ name ++ "@" ++ toString depth
  | temporary index => "%t" ++ toString index

end Variable

/-- The interned variables of a scope, each at the position of its identifier. -/
structure VarTable where
  entries : List Variable := []
  distinct : entries.Nodup := by exact List.nodup_nil
deriving DecidableEq

namespace VarTable

instance : Inhabited VarTable := ⟨{}⟩

def size (t : VarTable) : Nat := t.entries.length

def var? (t : VarTable) (v : VarId) : Option Variable := t.entries[v]?

def lookup? (t : VarTable) (x : Variable) : Option VarId :=
  if x ∈ t.entries then some (t.entries.idxOf x) else none

theorem nodup_concat {t : VarTable} {x : Variable} (fresh : ¬ x ∈ t.entries) :
    (t.entries ++ [x]).Nodup := by
  rw [List.nodup_append]
  refine ⟨t.distinct, by simp, ?_⟩
  intro a known b new
  rw [List.mem_singleton] at new
  subst new
  exact fun same => fresh (same ▸ known)

def intern (t : VarTable) (x : Variable) : VarId × VarTable :=
  if fresh : x ∈ t.entries then (t.entries.idxOf x, t)
  else (t.entries.length, { entries := t.entries ++ [x], distinct := nodup_concat fresh })

/-- A temporary numbered by how many temporaries the table holds. -/
def makeTemporary (t : VarTable) : VarId × VarTable :=
  t.intern (.temporary (t.entries.countP Variable.isTemporary))

def idsWhere (t : VarTable) (kind : Variable → Bool) : List VarId :=
  (List.range t.size).filter fun v => (t.var? v).any kind

def declared (t : VarTable) : List VarId := t.idsWhere Variable.isOwn

def enclosing (t : VarTable) : List VarId := t.idsWhere Variable.isEnclosing

def isOwn (t : VarTable) (v : VarId) : Bool := (t.var? v).any Variable.isOwn

/-- How a variable is written; an identifier outside the table shows as its number. -/
def text (t : VarTable) (v : VarId) : String :=
  match t.var? v with
  | some x => x.text
  | none => "%?" ++ toString v

/-! ## Looking up and reading are inverse -/

theorem lookup?_eq_some_iff {t : VarTable} {x : Variable} {v : VarId} :
    t.lookup? x = some v ↔ t.var? v = some x := by
  unfold lookup? var?
  constructor
  · intro found
    split at found
    · next known =>
        cases found
        rw [List.getElem?_eq_getElem (List.idxOf_lt_length_iff.mpr known), List.getElem_idxOf]
    · cases found
  · intro read
    obtain ⟨inside, value⟩ := List.getElem?_eq_some_iff.mp read
    have known : x ∈ t.entries := value ▸ List.getElem_mem inside
    rw [if_pos known, ← value, t.distinct.idxOf_getElem v inside]

theorem var?_inj {t : VarTable} {x : Variable} {v w : VarId} (left : t.var? v = some x)
    (right : t.var? w = some x) : v = w :=
  Option.some.inj ((lookup?_eq_some_iff.mpr left).symm.trans (lookup?_eq_some_iff.mpr right))

theorem var?_intern (t : VarTable) (x : Variable) :
    (t.intern x).2.var? (t.intern x).1 = some x := by
  unfold intern
  split
  · next known => exact lookup?_eq_some_iff.mp (if_pos known)
  · simp [var?]

theorem var?_intern_of_some {t : VarTable} {x y : Variable} {v : VarId}
    (read : t.var? v = some y) : (t.intern x).2.var? v = some y := by
  unfold intern
  split
  · exact read
  · unfold var? at read ⊢
    obtain ⟨inside, _⟩ := List.getElem?_eq_some_iff.mp read
    rw [List.getElem?_append_left inside]
    exact read

end VarTable

end FramePlacement
