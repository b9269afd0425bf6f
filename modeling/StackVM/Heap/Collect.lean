/-
  StackVM.Heap.Collect — collection of what nobody can reach.

  A collection starts from a list of roots. `Marking` follows valid references from there through the
  slots of live objects: an object is marked when it is first met and put on a list of objects still to
  be looked into, so none is put there twice and the list runs empty. The sweep then goes through the
  table in ascending order, retires every live object without a mark and takes the marks away again.

  If somebody is inside an object the collection does nothing and says that it freed nothing.
-/

import StackVM.Heap.Object

namespace StackVM

/-- A collection under way. -/
structure Marking where
  entries : Array Entry
  /-- The marked objects that have not been looked into; the head comes next. -/
  gray : List UInt32

namespace Marking

/-- The handle names a live object that has no mark yet. -/
def isNew (m : Marking) (x : Handle) : Bool :=
  m.entries[x.index.toNat]?.any fun e => e.answers x && !e.marked

def mark (m : Marking) (i : UInt32) : Marking where
  entries := m.entries.modify i.toNat fun e => { e with marked := true }
  gray := i :: m.gray

/-- Marks the object a value refers to, if it is a new one. -/
def visit (m : Marking) : Value → Marking
  | .raw _ => m
  | .ref x => if m.isNew x then m.mark x.index else m

def visitAll (m : Marking) (vs : List Value) : Marking := vs.foldl visit m

/-- Looks into the next object, if there is one. -/
def next? (m : Marking) : Option Marking :=
  match m.gray with
  | [] => none
  | i :: rest =>
    let slots := ((m.entries[i.toNat]?).map (·.slots)).getD #[]
    some (visitAll { m with gray := rest } slots.toList)

/-! ## The list runs empty -/

/-- The live objects that have no mark yet. -/
def unmarked (m : Marking) : Nat := m.entries.countP fun e => e.live && !e.marked

/-- Marking an object takes two off and looking into one takes one off. -/
def work (m : Marking) : Nat := 2 * m.unmarked + m.gray.length

theorem countP_modify {p : Entry → Bool} {es : Array Entry} {i : Nat} (f : Entry → Entry)
    (hi : i < es.size) (hp : p es[i]) (hf : p (f es[i]) = false) :
    (es.modify i f).countP p = es.countP p - 1 := by
  have hm : es.modify i f = es.set i (f es[i]) := by
    ext j hj hj'
    · simp
    · simp only [Array.getElem_modify, Array.getElem_set]
      split <;> simp_all
  rw [hm, Array.countP_set]
  simp [hp, hf]

/-- Visiting a value changes nothing, or it marks one object and puts it on the list. -/
theorem visit_cases (m : Marking) (v : Value) : m.visit v = m ∨
    (m.visit v).gray.length = m.gray.length + 1 ∧ (m.visit v).unmarked + 1 = m.unmarked := by
  cases v with
  | raw _ => exact .inl rfl
  | ref x =>
    simp only [visit]
    split
    next h =>
      simp only [isNew, Option.any_eq_true] at h
      obtain ⟨e, he, hp⟩ := h
      obtain ⟨hi, rfl⟩ := Array.getElem?_eq_some_iff.mp he
      simp only [Entry.answers, Bool.and_eq_true] at hp
      have hc : 0 < m.unmarked := Array.countP_pos_iff.mpr ⟨_, Array.getElem_mem hi, by simp [hp]⟩
      have hs : (m.mark x.index).unmarked = m.unmarked - 1 :=
        countP_modify _ hi (by simp [hp]) (by simp)
      exact .inr ⟨rfl, by omega⟩
    · exact .inl rfl

theorem work_visit_le (m : Marking) (v : Value) : (m.visit v).work ≤ m.work := by
  rcases m.visit_cases v with hsame | ⟨hgray, hunmarked⟩
  · exact Nat.le_of_eq (congrArg work hsame)
  · unfold work
    omega

theorem work_visitAll_le (m : Marking) (vs : List Value) : (m.visitAll vs).work ≤ m.work := by
  induction vs generalizing m with
  | nil => exact Nat.le_refl _
  | cons v vs ih => exact Nat.le_trans (ih (m.visit v)) (work_visit_le m v)

theorem work_lt_of_next? {m m' : Marking} (h : m.next? = some m') : m'.work < m.work := by
  unfold next? at h
  split at h
  · cases h
  next i rest hg =>
    simp only [Option.some.injEq] at h
    subst h
    refine Nat.lt_of_le_of_lt (work_visitAll_le _ _) ?_
    simp [work, unmarked, hg]

/-- Looks into one object after the other until none is left. -/
def finish (m : Marking) : Array Entry :=
  match _h : m.next? with
  | none => m.entries
  | some m' => m'.finish
termination_by m.work
decreasing_by exact work_lt_of_next? _h

end Marking

namespace Heap

/-- Marks every object that can be reached from the roots. -/
def mark (h : Heap) (roots : List Value) : Heap :=
  let ⟨classes, entries, capacity, held⟩ := h
  ⟨classes, (Marking.visitAll ⟨entries, []⟩ roots).finish, capacity, held⟩

/-- Whether the sweep retires, unmarks or passes over an entry. -/
inductive Fate
  | retire
  | unmark
  | pass
  deriving DecidableEq, Repr

def fateOf (e : Entry) : Fate :=
  if e.live && !e.marked then .retire else if e.marked then .unmark else .pass

/-- Sweeps one entry; the number counts what has been freed so far. -/
def sweepEntry (i : Nat) (freed : Nat) (h : Heap) : Nat × Heap :=
  match (h.entries[i]?).map fateOf with
  | some .retire => (freed + 1, h.retire (UInt32.ofNat i))
  | some .unmark => (freed, h.updateEntry (UInt32.ofNat i) fun e => { e with marked := false })
  | _ => (freed, h)

/-- Sweeps the first `n` entries in ascending order. -/
def sweepUpTo (n : Nat) (h : Heap) : Nat × Heap :=
  n.fold (fun i _ (freed, h) => sweepEntry i freed h) (0, h)

/-- Retires every live object without a mark and takes the marks away. -/
def sweep (h : Heap) : Nat × Heap := sweepUpTo h.entries.size h

/-- Frees what cannot be reached from the roots and tells how many objects that were. -/
def collect (roots : List Value) (h : Heap) : Nat × Heap :=
  if h.held.isEmpty then (h.mark roots).sweep else (0, h)

end Heap

end StackVM
