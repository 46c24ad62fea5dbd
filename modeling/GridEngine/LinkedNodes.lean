import Mathlib.Data.List.Basic

/-!
# Doubly linked nodes

A segment of doubly linked nodes in a heap, given by the pointers and the data of its nodes from
front to back and the pointers that its ends hold. Segments are put together and taken apart with
`++`; what a write elsewhere does to a segment is nothing.
-/

namespace LinkedNodes

abbrev Ptr := ℕ

structure Node (α : Type*) where
  prev : Option Ptr
  next : Option Ptr
  data : α
deriving Repr

variable {α : Type*}

/-- `none` is memory that is not allocated. -/
abbrev Heap (α : Type*) := Ptr → Option (Node α)

/-- Writes the `next` of a node; there is no result without the node. -/
def setNext (h : Heap α) (p : Ptr) (next : Option Ptr) : Option (Heap α) :=
  (h p).map fun node => Function.update h p (some { node with next := next })

def setPrev (h : Heap α) (p : Ptr) (prev : Option Ptr) : Option (Heap α) :=
  (h p).map fun node => Function.update h p (some { node with prev := prev })

def firstPtr (l : List (Ptr × α)) : Option Ptr := l.head?.map Prod.fst

def lastPtr (l : List (Ptr × α)) : Option Ptr := l.getLast?.map Prod.fst

/-- The nodes of `l` are linked one after the other, between `prev` and `next`. -/
def Segment (h : Heap α) (prev next : Option Ptr) : List (Ptr × α) → Prop
  | [] => True
  | (p, a) :: l => h p = some ⟨prev, (firstPtr l).or next, a⟩ ∧ Segment h (some p) next l

variable {h h' : Heap α} {prev next q : Option Ptr} {p : Ptr} {a : α} {l r : List (Ptr × α)}

@[simp] theorem firstPtr_nil : firstPtr ([] : List (Ptr × α)) = none := rfl

@[simp] theorem firstPtr_cons : firstPtr ((p, a) :: l) = some p := rfl

@[simp] theorem lastPtr_nil : lastPtr ([] : List (Ptr × α)) = none := rfl

@[simp] theorem lastPtr_concat : lastPtr (l ++ [(p, a)]) = some p := by
  simp [lastPtr]

theorem firstPtr_append : firstPtr (l ++ r) = (firstPtr l).or (firstPtr r) := by
  cases l with
  | nil => simp
  | cons e l => simp [firstPtr]

theorem lastPtr_append : lastPtr (l ++ r) = (lastPtr r).or (lastPtr l) := by
  rw [lastPtr, List.getLast?_append, lastPtr, lastPtr]
  cases r.getLast? <;> simp

theorem lastPtr_cons : lastPtr ((p, a) :: l) = (lastPtr l).or (some p) := by
  rw [← List.singleton_append, lastPtr_append]
  rfl

theorem firstPtr_eq_none : firstPtr l = none ↔ l = [] := by simp [firstPtr]

theorem lastPtr_eq_none : lastPtr l = none ↔ l = [] := by simp [lastPtr]

theorem mem_of_firstPtr (hp : firstPtr l = some p) : p ∈ l.map Prod.fst := by
  obtain ⟨e, he, rfl⟩ := Option.map_eq_some_iff.mp hp
  exact List.mem_map_of_mem (List.mem_of_head? he)

theorem mem_of_lastPtr (hp : lastPtr l = some p) : p ∈ l.map Prod.fst := by
  obtain ⟨e, he, rfl⟩ := Option.map_eq_some_iff.mp hp
  exact List.mem_map_of_mem (List.mem_of_getLast? he)

theorem segment_append (h : Heap α) (prev next : Option Ptr) (l r : List (Ptr × α)) :
    Segment h prev next (l ++ r) ↔
      Segment h prev ((firstPtr r).or next) l ∧ Segment h ((lastPtr l).or prev) next r := by
  induction l generalizing prev with
  | nil => simp [Segment]
  | cons e l ih =>
      obtain ⟨p, a⟩ := e
      rw [List.cons_append, Segment, Segment, ih, firstPtr_append, Option.or_assoc, lastPtr_cons,
        Option.or_assoc, Option.some_or, and_assoc]

theorem Segment.congr (hl : Segment h prev next l)
    (hsame : ∀ p a, (p, a) ∈ l → h' p = h p) : Segment h' prev next l := by
  induction l generalizing prev with
  | nil => trivial
  | cons e l ih =>
      obtain ⟨p, a⟩ := e
      refine ⟨?_, ih hl.2 fun p' a' hmem => hsame p' a' (List.mem_cons_of_mem _ hmem)⟩
      rw [hsame p a List.mem_cons_self]
      exact hl.1

theorem Segment.lookup (hl : Segment h prev next (l ++ (p, a) :: r)) :
    h p = some ⟨(lastPtr l).or prev, (firstPtr r).or next, a⟩ :=
  ((segment_append h prev next l _).mp hl).2.1

theorem Segment.setNext (hl : Segment h prev next (l ++ [(p, a)]))
    (hnodup : p ∉ l.map Prod.fst) (q : Option Ptr) :
    ∃ h', LinkedNodes.setNext h p q = some h' ∧ Segment h' prev q (l ++ [(p, a)]) ∧
      ∀ p', p' ≠ p → h' p' = h p' := by
  have hp := hl.lookup
  refine ⟨Function.update h p (some ⟨(lastPtr l).or prev, q, a⟩), ?_, ?_, fun p' hne =>
    Function.update_of_ne hne _ _⟩
  · rw [LinkedNodes.setNext, hp]
    rfl
  · rw [segment_append] at hl ⊢
    refine ⟨hl.1.congr fun p' a' hmem => ?_, ?_, trivial⟩
    · apply Function.update_of_ne
      rintro rfl
      exact hnodup (List.mem_map_of_mem hmem)
    · rw [Function.update_self]
      rfl

theorem Segment.setPrev (hl : Segment h prev next ((p, a) :: l))
    (hnodup : p ∉ l.map Prod.fst) (q : Option Ptr) :
    ∃ h', LinkedNodes.setPrev h p q = some h' ∧ Segment h' q next ((p, a) :: l) ∧
      ∀ p', p' ≠ p → h' p' = h p' := by
  refine ⟨Function.update h p (some ⟨q, (firstPtr l).or next, a⟩), ?_, ⟨?_, ?_⟩, fun p' hne =>
    Function.update_of_ne hne _ _⟩
  · rw [LinkedNodes.setPrev, hl.1]
    rfl
  · rw [Function.update_self]
  · refine hl.2.congr fun p' a' hmem => Function.update_of_ne ?_ _ _
    rintro rfl
    exact hnodup (List.mem_map_of_mem hmem)

end LinkedNodes
