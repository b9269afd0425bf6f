/-
  StackVM.Proofs.Machine.Handles — machines that differ in their handles only.

  An instruction moves references about and passes them to the heap. It never looks into a handle and never makes
  a reference of a word. So two machines that are the same but for their handles, which some relation links, stay
  so as long as the heap answers their calls in the same way, linked handles again for linked ones.

  - `Exec.agree_instruction`: an instruction on linked frames.
  - `Machine.Linked.step`: a step of linked machines.
  - `Machine.Within.step`: one machine beside itself. Its handles stay within a set that is closed under what the
    heap hands out.
-/

import Mathlib.Data.List.Forall2
import StackVM.Proofs.Heap.Effects
import StackVM.Machine.Report
import StackVM.Proofs.Machine.Step

namespace StackVM

/-! ## What is linked -/

section

variable (link : Handle → Handle → Prop)

inductive Value.Linked : Value → Value → Prop
  | raw (bits : UInt64) : Value.Linked (.raw bits) (.raw bits)
  | ref {x y : Handle} : link x y → Value.Linked (.ref x) (.ref y)

structure Stack.Linked (s s' : Stack) : Prop where
  capacity : s'.capacity = s.capacity
  /-- The topmost first. -/
  values : List.Forall₂ (Value.Linked link) s.toList.reverse s'.toList.reverse

structure Program.Linked (p p' : Program) : Prop where
  code : p'.code = p.code
  entry : p'.entry = p.entry
  inputs : ∀ side, List.Forall₂ (Value.Linked link) (p.inputs side).toList (p'.inputs side).toList

structure Frame.Linked (f f' : Frame) : Prop where
  stack : f.stack.Linked link f'.stack
  r : f.r.Linked link f'.r

inductive HeapError.Linked : HeapError → HeapError → Prop
  | same (e : HeapError) : HeapError.Linked e e
  | stale {x y : Handle} : link x y → HeapError.Linked (.stale x) (.stale y)

inductive Cause.Linked : Cause → Cause → Prop
  | same (c : Cause) : Cause.Linked c c
  | expectedRaw {x y : Handle} : link x y → Cause.Linked (.expectedRaw (.ref x)) (.expectedRaw (.ref y))
  | invalidReference {x y : Handle} : link x y → Cause.Linked (.invalidReference x) (.invalidReference y)
  | heap {e e' : HeapError} : e.Linked link e' → Cause.Linked (.heap e) (.heap e')

inductive Status.Linked : Status → Status → Prop
  | running : Status.Linked .running .running
  | halted : Status.Linked .halted .halted
  | faulted {c c' : Cause} : c.Linked link c' → Status.Linked (.faulted c) (.faulted c')

inductive Flow.Linked : Flow → Flow → Prop
  | same (flow : Flow) : Flow.Linked flow flow
  | print {v v' : Value} : v.Linked link v' → Flow.Linked (.print v) (.print v')

namespace Heap

inductive Call.Linked : Call → Call → Prop
  | allocate (n : Nat) : Call.Linked (.allocate n) (.allocate n)
  | read {x y : Handle} (slot : Nat) : link x y → Call.Linked (.read x slot) (.read y slot)
  | write {x y : Handle} {v w : Value} (slot : Nat) : link x y → v.Linked link w →
      Call.Linked (.write x slot v) (.write y slot w)
  | sizeOf {x y : Handle} : link x y → Call.Linked (.sizeOf x) (.sizeOf y)
  | retain {x y : Handle} : link x y → Call.Linked (.retain x) (.retain y)
  | release {x y : Handle} : link x y → Call.Linked (.release x) (.release y)

inductive Answer.Linked : Answer → Answer → Prop
  | handle {x y : Handle} : link x y → Answer.Linked (.handle x) (.handle y)
  | value {v w : Value} : v.Linked link w → Answer.Linked (.value v) (.value w)
  | size (n : Nat) : Answer.Linked (.size n) (.size n)
  | done : Answer.Linked .done .done
  | gone (yes : Bool) : Answer.Linked (.gone yes) (.gone yes)
  | count (n : UInt32) : Answer.Linked (.count n) (.count n)

/-- Two operations both succeed, with related results, or both fail, for linked reasons. -/
inductive Matches {α β : Type} (A : α → β → Prop) : Except HeapError α → Except HeapError β → Prop
  | ok {a : α} {b : β} : A a b → Matches A (.ok a) (.ok b)
  | error {e e' : HeapError} : e.Linked link e' → Matches A (.error e) (.error e')

/-- Two calls are answered in the same way. -/
def Alike : Except HeapError Answer → Except HeapError Answer → Prop := Matches link (Answer.Linked link)

end Heap

structure Machine.Linked (m m' : Machine) : Prop where
  program : m.program.Linked link m'.program
  settings : m'.settings = m.settings
  stack : m.stack.Linked link m'.stack
  r : m.r.Linked link m'.r
  pc : m'.pc = m.pc
  steps : m'.steps = m.steps
  status : m.status.Linked link m'.status
  offset : m'.offset = m.offset
  stopRequested : m'.stopRequested = m.stopRequested

end

variable {link : Handle → Handle → Prop}

theorem getElem?_of_forall₂ {α β : Type} {R : α → β → Prop} {l : List α} {l' : List β} (h : List.Forall₂ R l l')
    (i : Nat) : (l[i]? = none ∧ l'[i]? = none) ∨ ∃ a b, l[i]? = some a ∧ l'[i]? = some b ∧ R a b := by
  induction h generalizing i with
  | nil => exact .inl ⟨rfl, rfl⟩
  | cons hab _ ih =>
    cases i with
    | zero => exact .inr ⟨_, _, rfl, rfl, hab⟩
    | succ i => simpa using ih i

theorem forall₂_set {α β : Type} {R : α → β → Prop} {l : List α} {l' : List β} (h : List.Forall₂ R l l') (i : Nat)
    {a : α} {b : β} (hab : R a b) : List.Forall₂ R (l.set i a) (l'.set i b) := by
  induction h generalizing i with
  | nil => exact .nil
  | cons hcd hrest ih =>
    cases i with
    | zero => exact .cons hab hrest
    | succ i => exact .cons hcd (ih i)

theorem forall₂_modify {α β : Type} {R : α → β → Prop} {l : List α} {l' : List β} (h : List.Forall₂ R l l') (i : Nat)
    {f : α → α} {g : β → β} (hfg : ∀ a b, R a b → R (f a) (g b)) : List.Forall₂ R (l.modify i f) (l'.modify i g) := by
  induction h generalizing i with
  | nil => cases i <;> exact .nil
  | cons hcd hrest ih =>
    cases i with
    | zero => exact .cons (hfg _ _ hcd) hrest
    | succ i => exact .cons hcd (ih i)

theorem Heap.Matches.of_map {α α' β β' : Type} {A : β → β' → Prop} {f : α → β} {f' : α' → β'}
    {r : Except HeapError α} {r' : Except HeapError α'} (h : Matches link A (r.map f) (r'.map f')) :
    Matches link (fun a a' => A (f a) (f' a')) r r' := by
  cases r with
  | ok a =>
    cases r' with
    | ok a' => cases h with | ok ha => exact .ok ha
    | error e' => cases h
  | error e =>
    cases r' with
    | ok a' => cases h
    | error e' => cases h with | error he => exact .error he

theorem Heap.Matches.imp {α β : Type} {A B : α → β → Prop} {r : Except HeapError α} {r' : Except HeapError β}
    (h : Matches link A r r') (hab : ∀ a b, A a b → B a b) : Matches link B r r' := by
  cases h with
  | ok ha => exact .ok (hab _ _ ha)
  | error he => exact .error he

/-! ## Stacks -/

namespace Stack

theorem toList_swapTop {s : Stack} {l : List Value} {a b : Value} (hs : s.toList = l ++ [a, b]) :
    s.swapTop.1 = true ∧ s.swapTop.2.toList = l ++ [b, a] := by
  have htop : s.top = l.length + 2 := by rw [← length_toList, hs]; simp
  have htwo : 2 ≤ s.top := by omega
  have hsize := s.top_le
  have hcells : s.cells.toList.take s.top = l ++ [a, b] := by rw [← toList_eq_take, hs]
  have hat : ∀ i < s.top, s.cells[i]? = (l ++ [a, b])[i]? := by
    intro i hi
    rw [← hcells, List.getElem?_take_of_lt hi, Array.getElem?_toList]
  have ha : s.cells[l.length]? = some a := (hat _ (by omega)).trans (by simp)
  have hb : s.cells[l.length + 1]? = some b := (hat _ (by omega)).trans (by simp)
  obtain ⟨hla, ha⟩ := Array.getElem?_eq_some_iff.mp ha
  obtain ⟨hlb, hb⟩ := Array.getElem?_eq_some_iff.mp hb
  refine ⟨by simp [swapTop, htwo], ?_⟩
  simp only [toList_eq_take, swapTop, htwo, dif_pos, Array.toList_swap, List.take_set, hcells]
  simp [htop, ha, hb]

namespace Linked

variable {s s' : Stack}

theorem size (hs : s.Linked link s') : s'.size = s.size := by
  have hlen := hs.values.length_eq
  simpa [Stack.size] using hlen.symm

theorem isFull (hs : s.Linked link s') : s'.isFull = s.isFull := by
  have hsize : s'.top = s.top := hs.size
  have hcap : s'.cells.size = s.cells.size := hs.capacity
  simp only [Stack.isFull, hsize, hcap]

theorem peek (hs : s.Linked link s') (d : Nat) : (s.peek d = none ∧ s'.peek d = none) ∨
    ∃ v v', s.peek d = some v ∧ s'.peek d = some v' ∧ v.Linked link v' := by
  rw [peek_eq, peek_eq]
  exact getElem?_of_forall₂ hs.values d

theorem push (hs : s.Linked link s') {v v' : Value} (hv : v.Linked link v') :
    (s'.push v').1 = (s.push v).1 ∧ (s.push v).2.Linked link (s'.push v').2 := by
  have hsize : s'.top = s.top := hs.size
  by_cases hroom : s.top < s.capacity
  · have hroom' : s'.top < s'.capacity := by rw [hsize, hs.capacity]; exact hroom
    obtain ⟨h1, h2⟩ := push_of_lt (v := v) hroom
    obtain ⟨h1', h2'⟩ := push_of_lt (v := v') hroom'
    refine ⟨h1'.trans h1.symm, by simpa using hs.capacity, ?_⟩
    rw [h2, h2', List.reverse_append, List.reverse_append]
    exact .cons hv hs.values
  · have hfull : s.top = s.capacity := Nat.le_antisymm s.top_le (Nat.le_of_not_lt hroom)
    have hfull' : s'.top = s'.capacity := by rw [hsize, hs.capacity]; exact hfull
    rw [push_of_full hfull, push_of_full hfull']
    exact ⟨rfl, hs⟩

theorem pop (hs : s.Linked link s') : s.pop.2.Linked link s'.pop.2 := by
  refine ⟨by simpa using hs.capacity, ?_⟩
  have hvalues := hs.values
  generalize hl : s.toList.reverse = l at hvalues
  generalize hl' : s'.toList.reverse = l' at hvalues
  rw [List.reverse_eq_iff] at hl hl'
  cases hvalues with
  | nil =>
    have htop : s.top = 0 := by rw [← length_toList, hl]; rfl
    have htop' : s'.top = 0 := by rw [← length_toList, hl']; rfl
    rw [pop_of_empty htop, pop_of_empty htop', hl, hl']
    exact .nil
  | cons hv hrest =>
    rw [List.reverse_cons] at hl hl'
    rw [(pop_of_toList hl).2, (pop_of_toList hl').2, List.reverse_reverse, List.reverse_reverse]
    exact hrest

theorem swapTop (hs : s.Linked link s') :
    s'.swapTop.1 = s.swapTop.1 ∧ s.swapTop.2.Linked link s'.swapTop.2 := by
  have hsize : s'.top = s.top := hs.size
  have hvalues := hs.values
  by_cases htwo : 2 ≤ s.top
  · generalize hl : s.toList.reverse = l at hvalues
    generalize hl' : s'.toList.reverse = l' at hvalues
    have hlen : l.length = s.top := by rw [← hl]; simp
    rw [List.reverse_eq_iff] at hl hl'
    rcases hvalues with _ | ⟨hb, _ | ⟨ha, hrest⟩⟩
    · simp at hlen; omega
    · simp at hlen; omega
    · simp only [List.reverse_cons, List.append_assoc, List.cons_append, List.nil_append] at hl hl'
      obtain ⟨h1, h2⟩ := toList_swapTop hl
      obtain ⟨h1', h2'⟩ := toList_swapTop hl'
      refine ⟨h1'.trans h1.symm, by simpa using hs.capacity, ?_⟩
      rw [h2, h2']
      simpa using ⟨ha, hb, hrest⟩
  · have htwo' : ¬ 2 ≤ s'.top := by rw [hsize]; exact htwo
    simp only [Stack.swapTop, htwo, htwo', dif_neg, not_false_iff]
    exact ⟨trivial, hs⟩

theorem clear (hs : s.Linked link s') : s.clear.Linked link s'.clear :=
  ⟨hs.capacity, by simp⟩

/-- The references on the two stacks are linked. -/
theorem reference? (hs : s.Linked link s') (d : Nat) : (s.reference? d = none ∧ s'.reference? d = none) ∨
    ∃ x y, s.reference? d = some x ∧ s'.reference? d = some y ∧ link x y := by
  rcases hs.peek d with ⟨h, h'⟩ | ⟨v, v', h, h', hv⟩
  · simp [Stack.reference?, h, h']
  · cases hv with
    | raw bits => simp [Stack.reference?, h, h']
    | ref hxy => exact .inr ⟨_, _, reference?_eq_some.mpr h, reference?_eq_some.mpr h', hxy⟩

end Linked

end Stack

/-! ## Actions on linked frames -/

theorem Frame.Linked.popped {f f' : Frame} (hf : f.Linked link f') :
    Frame.Linked link ⟨f.stack.pop.2, f.r, f.heap⟩ ⟨f'.stack.pop.2, f'.r, f'.heap⟩ :=
  ⟨hf.stack.pop, hf.r⟩

namespace Exec

variable {α β : Type}

/-- Two actions have both succeeded, with related results, or both failed, for linked causes. -/
inductive Agree (link : Handle → Handle → Prop) (A : α → α → Prop) :
    EStateM.Result Cause Frame α → EStateM.Result Cause Frame α → Prop
  | ok {a a' : α} {f f' : Frame} : A a a' → f.Linked link f' → Agree link A (.ok a f) (.ok a' f')
  | error {c c' : Cause} {f f' : Frame} : c.Linked link c' → f.Linked link f' →
      Agree link A (.error c f) (.error c' f')

/-- From linked frames the two actions agree. -/
def Parallel (link : Handle → Handle → Prop) (A : α → α → Prop) (act act' : Exec α) : Prop :=
  ∀ f f', f.Linked link f' → Agree link A (act f) (act' f')

variable {A : α → α → Prop} {B : β → β → Prop} {f f' : Frame}

theorem Agree.bind {act act' : Exec α} {k k' : α → Exec β} (h : Agree link A (act f) (act' f'))
    (hk : ∀ a a', A a a' → Parallel link B (k a) (k' a')) : Agree link B ((act >>= k) f) ((act' >>= k') f') := by
  generalize hx : act f = r at h
  generalize hx' : act' f' = r' at h
  cases h with
  | ok ha hg => rw [bind_of_ok hx, bind_of_ok hx']; exact hk _ _ ha _ _ hg
  | error hc hg => rw [bind_of_error hx, bind_of_error hx']; exact .error hc hg

theorem Parallel.bind {act act' : Exec α} {k k' : α → Exec β} (h : Parallel link A act act')
    (hk : ∀ a a', A a a' → Parallel link B (k a) (k' a')) : Parallel link B (act >>= k) (act' >>= k') :=
  fun f f' hf => (h f f' hf).bind hk

theorem parallel_pure {a a' : α} (ha : A a a') : Parallel link A (pure a) (pure a') := fun _ _ hf => .ok ha hf

theorem parallel_throw {c c' : Cause} (hc : c.Linked link c') : Parallel link A (throw c) (throw c') :=
  fun _ _ hf => .error hc hf

theorem parallel_push {v v' : Value} (hv : v.Linked link v') : Parallel link Eq (push v) (push v') := by
  intro f f' hf
  obtain ⟨hroom, hs⟩ := hf.stack.push hv
  have hcap : (f'.stack.push v').2.capacity = (f.stack.push v).2.capacity := hs.capacity
  unfold push
  rcases hp : f.stack.push v with ⟨b, s⟩
  rcases hp' : f'.stack.push v' with ⟨b', s'⟩
  rw [hp, hp'] at hroom hs hcap
  cases b with
  | true =>
    obtain rfl : b' = true := hroom
    simp only [hp, hp']
    exact .ok rfl ⟨hs, hf.r⟩
  | false =>
    obtain rfl : b' = false := hroom
    simp only [hp, hp']
    rw [show s'.capacity = s.capacity from hcap]
    exact .error (.same _) ⟨hs, hf.r⟩

theorem parallel_pop : Parallel link (Value.Linked link) pop pop := by
  intro f f' hf
  rcases hf.stack.peek 0 with ⟨hv, hv'⟩ | ⟨v, v', hv, hv', hl⟩
  · rw [pop_of_peek_none hv, pop_of_peek_none hv']
    exact .error (.same _) hf.popped
  · rw [pop_of_peek hv, pop_of_peek hv']
    exact .ok hl hf.popped

theorem parallel_top (c : Cause) : Parallel link (Value.Linked link) (top c) (top c) := by
  intro f f' hf
  unfold top
  rcases hf.stack.peek 0 with ⟨hv, hv'⟩ | ⟨v, v', hv, hv', hl⟩
  · rw [hv, hv']
    exact .error (.same c) hf
  · rw [hv, hv']
    exact .ok hl hf

theorem parallel_swapTop : Parallel link Eq swapTop swapTop := by
  intro f f' hf
  obtain ⟨htwo, hs⟩ := hf.stack.swapTop
  unfold swapTop
  rcases hp : f.stack.swapTop with ⟨b, s⟩
  rcases hp' : f'.stack.swapTop with ⟨b', s'⟩
  rw [hp, hp'] at htwo hs
  cases b with
  | true =>
    obtain rfl : b' = true := htwo
    simp only [hp, hp']
    exact .ok rfl ⟨hs, hf.r⟩
  | false =>
    obtain rfl : b' = false := htwo
    simp only [hp, hp']
    exact .error (.same _) ⟨hs, hf.r⟩

theorem parallel_clear : Parallel link Eq clear clear := fun _ _ hf => .ok rfl ⟨hf.stack.clear, hf.r⟩

theorem parallel_setRegister {v v' : Value} (hv : v.Linked link v') :
    Parallel link Eq (setRegister v) (setRegister v') := fun _ _ hf => .ok rfl ⟨hf.stack, hv⟩

theorem parallel_pushRegister : Parallel link Eq pushRegister pushRegister := by
  intro f f' hf
  exact parallel_push hf.r f f' hf

theorem parallel_twoOperands (op : Opcode) : Parallel link Eq (twoOperands op) (twoOperands op) := by
  intro f f' hf
  unfold twoOperands
  rw [hf.stack.size]
  split
  · exact .error (.same _) hf
  · exact .ok rfl hf

theorem parallel_popRaw : Parallel link Eq popRaw popRaw := by
  refine parallel_pop.bind fun v v' hv => ?_
  cases hv with
  | raw bits => exact parallel_pure rfl
  | ref hxy => exact parallel_throw (.expectedRaw hxy)

theorem parallel_operator (op : Opcode) (apply : UInt64 → UInt64 → Option UInt64) :
    Parallel link Eq (operator op apply) (operator op apply) := by
  refine (parallel_twoOperands op).bind fun _ _ _ => parallel_popRaw.bind fun b b' hb => ?_
  subst hb
  refine parallel_popRaw.bind fun a a' ha => ?_
  subst ha
  cases apply a b with
  | none => exact parallel_throw (.same _)
  | some v => exact parallel_push (.raw v)

theorem parallel_pushInput {p p' : Program} (hp : p.Linked link p') (side : Side) (i : Nat) :
    Parallel link Eq (pushInput p side i) (pushInput p' side i) := by
  have hsize : (p'.inputs side).size = (p.inputs side).size := (hp.inputs side).length_eq.symm
  unfold pushInput
  rw [← Array.getElem?_toList, ← Array.getElem?_toList, hsize]
  rcases getElem?_of_forall₂ (hp.inputs side) i with ⟨hv, hv'⟩ | ⟨v, v', hv, hv', hl⟩
  · rw [hv, hv']
    exact parallel_throw (.same _)
  · rw [hv, hv']
    exact parallel_push hl

theorem parallel_jump {p p' : Program} (hp : p.Linked link p') (target : UInt64) :
    Parallel link (Flow.Linked link) (jump p target) (jump p' target) := by
  unfold jump
  rw [hp.code]
  split
  · exact parallel_throw (.same _)
  · exact parallel_pure (.same _)

theorem parallel_jumpIf {p p' : Program} (hp : p.Linked link p') (taken : UInt64 → Bool) (target : UInt64) :
    Parallel link (Flow.Linked link) (jumpIf p taken target) (jumpIf p' taken target) := by
  refine parallel_popRaw.bind fun c c' hc => ?_
  subst hc
  cases taken c with
  | true => exact parallel_jump hp target
  | false => exact parallel_pure (.same _)

theorem Agree.andNext {act act' : Exec Unit} (h : Agree link Eq (act f) (act' f')) :
    Agree link (Flow.Linked link) (andNext act f) (andNext act' f') :=
  h.bind fun _ _ _ => parallel_pure (.same _)

/-! ## Actions on objects -/

theorem ofHandleUse_linked {x y : Handle} (hxy : link x y) {e e' : HeapError} (he : e.Linked link e') :
    (Cause.ofHandleUse x e).Linked link (Cause.ofHandleUse y e') := by
  cases he with
  | stale _ => exact .invalidReference hxy
  | same =>
    cases e with
    | stale _ | indexOutOfRange _ => exact .invalidReference hxy
    | _ => exact .same _

theorem ofAllocation_linked {e e' : HeapError} (he : e.Linked link e') :
    (Cause.ofAllocation e).Linked link (Cause.ofAllocation e') := by
  cases he <;> exact .same _

/-- A heap operation that comes to the same on both sides. -/
theorem agree_onHeap {act act' : HeapM α} {cause cause' : HeapError → Cause}
    (hc : ∀ e e', e.Linked link e' → (cause e).Linked link (cause' e')) (hf : f.Linked link f')
    (hm : Heap.Matches link A (Heap.outcome act f.heap) (Heap.outcome act' f'.heap)) :
    Agree link A (onHeap cause act f) (onHeap cause' act' f') := by
  unfold Heap.outcome at hm
  unfold onHeap
  rcases hx : act f.heap with ⟨a, h⟩ | ⟨e, h⟩
  · rcases hx' : act' f'.heap with ⟨a', h'⟩ | ⟨e', h'⟩
    · rw [hx, hx'] at hm
      cases hm with
      | ok ha =>
        simp only [hx, hx']
        exact .ok ha ⟨hf.stack, hf.r⟩
    · rw [hx, hx'] at hm
      cases hm
  · rcases hx' : act' f'.heap with ⟨a', h'⟩ | ⟨e', h'⟩
    · rw [hx, hx'] at hm
      cases hm
    · rw [hx, hx'] at hm
      cases hm with
      | error he =>
        simp only [hx, hx']
        exact .error (hc _ _ he) ⟨hf.stack, hf.r⟩

/-- An action that takes a reference off the stack and uses it. -/
theorem agree_popReference {k k' : Handle → Exec α} (hf : f.Linked link f')
    (hk : ∀ x y, f.stack.reference? 0 = some x → f'.stack.reference? 0 = some y → link x y →
      Agree link A (k x ⟨f.stack.pop.2, f.r, f.heap⟩) (k' y ⟨f'.stack.pop.2, f'.r, f'.heap⟩)) :
    Agree link A ((popReference >>= k) f) ((popReference >>= k') f') := by
  rcases hf.stack.peek 0 with ⟨hv, hv'⟩ | ⟨v, v', hv, hv', hl⟩
  · have hx : popReference f = .error .stackUnderflow _ := bind_of_error (pop_of_peek_none hv)
    have hx' : popReference f' = .error .stackUnderflow _ := bind_of_error (pop_of_peek_none hv')
    rw [bind_of_error hx, bind_of_error hx']
    exact .error (.same _) hf.popped
  · cases hl with
    | raw bits =>
      have hx : popReference f = .error (.expectedReference (.raw bits)) _ := bind_of_ok (pop_of_peek hv)
      have hx' : popReference f' = .error (.expectedReference (.raw bits)) _ := bind_of_ok (pop_of_peek hv')
      rw [bind_of_error hx, bind_of_error hx']
      exact .error (.same _) hf.popped
    | @ref x y hxy =>
      have hx := Stack.reference?_eq_some.mpr hv
      have hy := Stack.reference?_eq_some.mpr hv'
      rw [bind_of_ok (popReference_of_reference? hx), bind_of_ok (popReference_of_reference? hy)]
      exact hk x y hx hy hxy

theorem agree_alloc {n : Nat} (hf : f.Linked link f') (hans : f.stack.isFull = false → Heap.Alike link
    ((Heap.Call.allocate n).answer f.heap) ((Heap.Call.allocate n).answer f'.heap)) :
    Agree link Eq (alloc n f) (alloc n f') := by
  have hisFull := hf.stack.isFull
  unfold alloc
  cases hfull : f.stack.isFull with
  | true =>
    rw [hfull] at hisFull
    have hx' := room_of_full hisFull
    rw [hf.stack.capacity] at hx'
    rw [bind_of_error (room_of_full hfull), bind_of_error hx']
    exact .error (.same _) hf
  | false =>
    rw [hfull] at hisFull
    rw [bind_of_ok (room_of_not_full hfull), bind_of_ok (room_of_not_full hisFull)]
    refine (agree_onHeap (fun _ _ he => ofAllocation_linked he) hf (hans hfull).of_map).bind fun x y hxy => ?_
    cases hxy with | handle hxy => exact parallel_push (.ref hxy)

/-- An action that takes a reference off the stack, makes a call with it and goes on with the answer. -/
theorem agree_onHandle {γ : Type} {use : Handle → HeapM γ} {rest : γ → Exec α} {call : Handle → Heap.Call}
    {wrap : γ → Heap.Answer} (hcall : ∀ x h, (call x).answer h = (Heap.outcome (use x) h).map wrap)
    (hrest : ∀ a b, (wrap a).Linked link (wrap b) → Parallel link A (rest a) (rest b)) (hf : f.Linked link f')
    (hans : ∀ x y, f.stack.reference? 0 = some x → f'.stack.reference? 0 = some y → link x y →
      Heap.Alike link ((call x).answer f.heap) ((call y).answer f'.heap)) :
    Agree link A ((popReference >>= fun x => onHeap (Cause.ofHandleUse x) (use x) >>= rest) f)
      ((popReference >>= fun x => onHeap (Cause.ofHandleUse x) (use x) >>= rest) f') := by
  refine agree_popReference hf fun x y hx hy hxy => ?_
  have hsame := hans x y hx hy hxy
  rw [hcall, hcall] at hsame
  have hon := agree_onHeap (fun _ _ => ofHandleUse_linked hxy) hf.popped (Heap.Matches.of_map hsame)
  exact hon.bind hrest

theorem agree_retain (hf : f.Linked link f')
    (hans : ∀ x y, f.stack.reference? 0 = some x → f'.stack.reference? 0 = some y → link x y →
      Heap.Alike link ((Heap.Call.retain x).answer f.heap) ((Heap.Call.retain y).answer f'.heap)) :
    Agree link Eq (retain f) (retain f') := by
  refine agree_popReference hf fun x y hx hy hxy => ?_
  exact agree_onHeap (fun _ _ => ofHandleUse_linked hxy) hf.popped
    ((hans x y hx hy hxy).of_map.imp fun _ _ _ => rfl)

theorem agree_setProp {slot : Nat} (hf : f.Linked link f')
    (hans : ∀ x y v w, f.stack.reference? 1 = some x → f'.stack.reference? 1 = some y → link x y →
      f.stack.peek 0 = some v → f'.stack.peek 0 = some w → v.Linked link w →
      Heap.Alike link ((Heap.Call.write x slot v).answer f.heap) ((Heap.Call.write y slot w).answer f'.heap)) :
    Agree link Eq (setProp slot f) (setProp slot f') := by
  unfold setProp
  rcases hf.stack.peek 0 with ⟨hv, hv'⟩ | ⟨v, w, hv, hv', hl⟩
  · rw [bind_of_error (pop_of_peek_none hv), bind_of_error (pop_of_peek_none hv')]
    exact .error (.same _) hf.popped
  · rw [bind_of_ok (pop_of_peek hv), bind_of_ok (pop_of_peek hv')]
    refine agree_popReference hf.popped fun x y hx hy hxy => ?_
    -- the reference lies under the value
    simp only [Stack.reference?, Stack.peek_pop hv] at hx
    simp only [Stack.reference?, Stack.peek_pop hv'] at hy
    exact agree_onHeap (fun _ _ => ofHandleUse_linked hxy) hf.popped.popped
      ((hans x y v w hx hy hxy hv hv' hl).of_map.imp fun _ _ _ => rfl)

/-! ## Every instruction -/

/-- Linked stacks lead to linked calls. -/
theorem heapCall?_linked {s s' : Stack} (hs : s.Linked link s') (i : Instruction) :
    (heapCall? i s = none ∧ heapCall? i s' = none) ∨
      ∃ a a', heapCall? i s = some a ∧ heapCall? i s' = some a' ∧ a.Linked link a' := by
  rcases i with ⟨op, operand⟩
  -- the instructions that name one handle, on top of the stack
  have hone : ∀ call : Handle → Heap.Call, (∀ x y, link x y → (call x).Linked link (call y)) →
      ((s.reference? 0).map call = none ∧ (s'.reference? 0).map call = none) ∨
        ∃ a a', (s.reference? 0).map call = some a ∧ (s'.reference? 0).map call = some a' ∧ a.Linked link a' := by
    intro call hcall
    rcases hs.reference? 0 with ⟨hx, hy⟩ | ⟨x, y, hx, hy, hxy⟩
    · simp [hx, hy]
    · right
      exact ⟨call x, call y, by simp [hx], by simp [hy], hcall x y hxy⟩
  cases op with
  | prop => exact hone (.read · operand.toNat) fun _ _ => .read _
  | sizeOf => exact hone .sizeOf fun _ _ => .sizeOf
  | retain => exact hone .retain fun _ _ => .retain
  | release => exact hone .release fun _ _ => .release
  | alloc =>
    simp only [heapCall?, hs.isFull]
    split
    · exact .inl ⟨rfl, rfl⟩
    · exact .inr ⟨_, _, rfl, rfl, .allocate _⟩
  | setProp =>
    simp only [heapCall?]
    rcases hs.reference? 1 with ⟨hx, hy⟩ | ⟨x, y, hx, hy, hxy⟩
    · simp [hx, hy]
    rcases hs.peek 0 with ⟨hv, hw⟩ | ⟨v, w, hv, hw, hvw⟩
    · simp [hx, hy, hv, hw]
    · right
      exact ⟨.write x operand.toNat v, .write y operand.toNat w, by simp [hx, hv], by simp [hy, hw], .write _ hxy hvw⟩
  | _ => exact .inl ⟨rfl, rfl⟩

/-- An instruction does the same on linked frames if its call is answered in the same way. -/
theorem agree_instruction {p p' : Program} (hp : p.Linked link p') (i : Instruction) (hf : f.Linked link f')
    (hans : ∀ a a', heapCall? i f.stack = some a → heapCall? i f'.stack = some a' → a.Linked link a' →
      Heap.Alike link (a.answer f.heap) (a'.answer f'.heap)) :
    Agree link (Flow.Linked link) (instruction p i f) (instruction p' i f') := by
  rcases i with ⟨op, operand⟩
  cases op with
  | unreachable => exact parallel_throw (.same _) f f' hf
  | noop | halt => exact parallel_pure (.same _) f f' hf
  | jump => exact parallel_jump hp _ f f' hf
  | jumpIfZero | jumpIfNotZero => exact parallel_jumpIf hp _ _ f f' hf
  | pushInput side => exact (parallel_pushInput hp side _ f f' hf).andNext
  | pushR => exact (parallel_pushRegister f f' hf).andNext
  | pop => exact ((parallel_pop f f' hf).bind fun _ _ _ => parallel_pure rfl).andNext
  | popIntoR => exact ((parallel_pop f f' hf).bind fun _ _ hv => parallel_setRegister hv).andNext
  | dup => exact ((parallel_top _ f f' hf).bind fun _ _ hv => parallel_push hv).andNext
  | swap => exact (parallel_swapTop f f' hf).andNext
  | pushWord => exact (parallel_push (.raw _) f f' hf).andNext
  | clear => exact (parallel_clear f f' hf).andNext
  | int op | float op => exact (parallel_operator _ _ f f' hf).andNext
  | print => exact (parallel_top _ f f' hf).bind fun _ _ hv => parallel_pure (.print hv)
  | alloc =>
    refine (agree_alloc hf fun hfull => hans _ _ ?_ ?_ (.allocate _)).andNext
    · simp [heapCall?, hfull]
    · simp [heapCall?, hf.stack.isFull, hfull]
  | prop =>
    refine Agree.andNext (agree_onHandle (fun _ _ => rfl) ?_ hf fun x y hx hy hxy => hans _ _ ?_ ?_ (.read _ hxy))
    · rintro v w ⟨⟩; exact parallel_push ‹_›
    · simp [heapCall?, hx]
    · simp [heapCall?, hy]
  | setProp =>
    refine (agree_setProp hf fun x y v w hx hy hxy hv hw hvw => hans _ _ ?_ ?_ (.write _ hxy hvw)).andNext
    · simp [heapCall?, hx, hv]
    · simp [heapCall?, hy, hw]
  | sizeOf =>
    refine Agree.andNext (agree_onHandle (fun _ _ => rfl) ?_ hf fun x y hx hy hxy => hans _ _ ?_ ?_ (.sizeOf hxy))
    · rintro n _ ⟨⟩; exact parallel_push (.raw _)
    · simp [heapCall?, hx]
    · simp [heapCall?, hy]
  | retain =>
    refine (agree_retain hf fun x y hx hy hxy => hans _ _ ?_ ?_ (.retain hxy)).andNext
    · simp [heapCall?, hx]
    · simp [heapCall?, hy]
  | release =>
    refine Agree.andNext (agree_onHandle (fun _ _ => rfl) ?_ hf fun x y hx hy hxy => hans _ _ ?_ ?_ (.release hxy))
    · intro _ _ _; exact parallel_pure rfl
    · simp [heapCall?, hx]
    · simp [heapCall?, hy]

end Exec

/-! ## Linked handles that are equal -/

section

variable (hsame : ∀ x y, link x y → x = y)
include hsame

theorem Value.Linked.eq {v w : Value} (hl : v.Linked link w) : w = v := by
  cases hl with
  | raw bits => rfl
  | ref hxy => rw [hsame _ _ hxy]

theorem Cause.Linked.eq {c c' : Cause} (hl : c.Linked link c') : c' = c := by
  cases hl with
  | same c => rfl
  | expectedRaw hxy => rw [hsame _ _ hxy]
  | invalidReference hxy => rw [hsame _ _ hxy]
  | heap he =>
    cases he with
    | same e => rfl
    | stale hxy => rw [hsame _ _ hxy]

theorem Heap.Call.Linked.eq {a a' : Heap.Call} (hl : a.Linked link a') : a' = a := by
  cases hl with
  | allocate n => rfl
  | read _ hxy | sizeOf hxy | retain hxy | release hxy => rw [hsame _ _ hxy]
  | write _ hxy hv => rw [hsame _ _ hxy, hv.eq hsame]

theorem Status.Linked.eq {st st' : Status} (hl : st.Linked link st') : st' = st := by
  cases hl with
  | running | halted => rfl
  | faulted hc => rw [hc.eq hsame]

theorem Stack.Linked.toList_eq {s s' : Stack} (hs : s.Linked link s') : s'.toList = s.toList := by
  have hall := hs.values.imp fun v w hvw => (Value.Linked.eq hsame hvw).symm
  rw [List.forall₂_eq_eq_eq] at hall
  exact (List.reverse_inj.mp hall).symm

/-- Machines with the same handles look the same. -/
theorem Machine.Linked.report {m m' : Machine} (hm : m.Linked link m') : m'.report = m.report := by
  unfold Machine.report
  rw [hm.status.eq hsame, hm.offset, hm.steps, hm.pc, hm.r.eq hsame, hm.stack.toList_eq hsame]

end

/-! ## Steps of linked machines -/

namespace Machine

variable {m m' : Machine} {h h' : Heap}

/-- The outcomes of two steps: linked machines and, if linked handles are equal, the same lines. -/
structure StepsLinked (link : Handle → Handle → Prop) (x x' : Machine × Heap × List Log.Line) : Prop where
  machine : x.1.Linked link x'.1
  lines : (∀ x y, link x y → x = y) → x'.2.2 = x.2.2

namespace Linked

theorem outOfBudget (hm : m.Linked link m') : m'.outOfBudget = m.outOfBudget := by
  simp only [Machine.outOfBudget, hm.settings, hm.steps]

theorem isRunning (hm : m.Linked link m') : m'.isRunning = m.isRunning := by
  have hst := hm.status
  unfold Machine.isRunning
  generalize m.status = st at hst
  generalize m'.status = st' at hst
  cases hst <;> rfl

theorem instruction?_eq (hm : m.Linked link m') : m'.instruction? = m.instruction? := by
  unfold instruction?
  rw [hm.stopRequested, hm.pc, hm.program.code, hm.outOfBudget]
  have hst := hm.status
  generalize m.status = st at hst
  generalize m'.status = st' at hst
  cases hst <;> rfl

theorem traceLines (hm : m.Linked link m') : m'.traceLines = m.traceLines := by
  simp only [Machine.traceLines, traceLine, hm.settings, hm.program.code, hm.pc, hm.stack.size]

theorem frame (hm : m.Linked link m') : (m.frame h).Linked link (m'.frame h') := ⟨hm.stack, hm.r⟩

theorem counting (hm : m.Linked link m') {f f' : Frame} (hf : f.Linked link f') :
    (m.counting f).Linked link (m'.counting f') :=
  ⟨hm.program, hm.settings, hf.stack, hf.r, hm.pc, congrArg (· + 1) hm.steps, hm.status, hm.offset, hm.stopRequested⟩

theorem requestStop (hm : m.Linked link m') : m.requestStop.Linked link m'.requestStop :=
  ⟨hm.program, hm.settings, hm.stack, hm.r, hm.pc, hm.steps, hm.status, hm.offset, rfl⟩

theorem halt (hm : m.Linked link m') (lines : List Log.Line) :
    StepsLinked link (m.halt, h, lines) (m'.halt, h', lines) :=
  ⟨⟨hm.program, hm.settings, hm.stack, hm.r, hm.pc, hm.steps, .halted, hm.pc, hm.stopRequested⟩, fun _ => rfl⟩

theorem fail (hm : m.Linked link m') {c c' : Cause} (hc : c.Linked link c') (lines : List Log.Line) :
    StepsLinked link (m.fail c, h, lines ++ m.faultLines c) (m'.fail c', h', lines ++ m'.faultLines c') := by
  refine ⟨⟨hm.program, hm.settings, hm.stack, hm.r, hm.pc, hm.steps, .faulted hc, hm.pc, hm.stopRequested⟩, ?_⟩
  intro hsame
  simp only [faultLines, hm.settings, hm.pc, hc.eq hsame]

theorem failing (hm : m.Linked link m') (c : Cause) : StepsLinked link (m.failing c h) (m'.failing c h') :=
  hm.fail (.same c) []

theorem follow (hm : m.Linked link m') (length : Nat) {flow flow' : Flow} (hflow : flow.Linked link flow')
    (lines : List Log.Line) : StepsLinked link ((m.follow length flow).1, h, lines ++ (m.follow length flow).2)
      ((m'.follow length flow').1, h', lines ++ (m'.follow length flow').2) := by
  -- wherever it goes, only the place changes
  have hgo : ∀ pc, Machine.Linked link { m with pc := pc } { m' with pc := pc } := fun pc =>
    ⟨hm.program, hm.settings, hm.stack, hm.r, rfl, hm.steps, hm.status, hm.offset, hm.stopRequested⟩
  have hnext : Machine.Linked link { m with pc := m.pc + length } { m' with pc := m'.pc + length } := by
    rw [hm.pc]
    exact hgo _
  cases hflow with
  | print hv =>
    refine ⟨hnext, fun hsame => ?_⟩
    simp only [Machine.follow, hv.eq hsame]
  | same =>
    cases flow with
    | next => exact ⟨hnext, fun _ => rfl⟩
    | jump target => exact ⟨hgo target, fun _ => rfl⟩
    | halt => exact hm.halt (lines ++ [])
    | print v => exact ⟨hnext, fun _ => rfl⟩

theorem step_of_none (hm : m.Linked link m') (hi : m.instruction? = none) :
    StepsLinked link (m.step h) (m'.step h') := by
  have hst := hm.status
  unfold instruction? at hi
  unfold Machine.step
  rw [hm.stopRequested, hm.pc, hm.program.code, hm.outOfBudget, hm.settings]
  generalize m.status = st at hst hi
  generalize m'.status = st' at hst
  cases hst with
  | halted => exact ⟨hm, fun _ => rfl⟩
  | faulted _ => exact ⟨hm, fun _ => rfl⟩
  | running =>
    by_cases hstop : m.stopRequested = true
    · rw [if_pos hstop, if_pos hstop]
      exact hm.failing _
    by_cases hend : m.pc = m.program.code.size
    · rw [if_neg hstop, if_neg hstop, if_pos hend, if_pos hend]
      exact hm.halt []
    by_cases hbudget : m.outOfBudget = true
    · rw [if_neg hstop, if_neg hstop, if_neg hend, if_neg hend, if_pos hbudget, if_pos hbudget]
      exact hm.failing _
    rw [if_neg (by simp [hstop, hend, hbudget])] at hi
    rw [if_neg hstop, if_neg hstop, if_neg hend, if_neg hend, if_neg hbudget, if_neg hbudget]
    cases hd : Instruction.decode m.program.code m.pc with
    | ok i => rw [hd] at hi; cases hi
    | error e =>
      cases e with
      | endOfCode => exact hm.halt []
      | illegalOpcode b => exact hm.failing _
      | truncated op => exact hm.failing _

/-- Linked machines make linked calls. -/
theorem heapCall? (hm : m.Linked link m') : (m.heapCall? = none ∧ m'.heapCall? = none) ∨
    ∃ a a', m.heapCall? = some a ∧ m'.heapCall? = some a' ∧ a.Linked link a' := by
  unfold Machine.heapCall?
  rw [hm.instruction?_eq]
  cases m.instruction? with
  | none => exact .inl ⟨rfl, rfl⟩
  | some i => exact Exec.heapCall?_linked hm.stack i

/-- A step does the same to linked machines if its call is answered in the same way. -/
theorem step (hm : m.Linked link m') (hans : ∀ a a', m.heapCall? = some a → m'.heapCall? = some a' →
    a.Linked link a' → Heap.Alike link (a.answer h) (a'.answer h')) :
    StepsLinked link (m.step h) (m'.step h') := by
  cases hi : m.instruction? with
  | none => exact hm.step_of_none hi
  | some i =>
    have hi' : m'.instruction? = some i := hm.instruction?_eq.trans hi
    rw [step_of_instruction? hi, step_of_instruction? hi']
    have hframe : (m.frame h).Linked link (m'.frame h') := hm.frame
    have hagree := Exec.agree_instruction hm.program i hframe fun a a' ha ha' hl =>
      hans a a' (by simp only [Machine.heapCall?, hi]; exact ha) (by simp only [Machine.heapCall?, hi']; exact ha') hl
    generalize hx : Exec.instruction m.program i (m.frame h) = x at hagree
    generalize hx' : Exec.instruction m'.program i (m'.frame h') = x' at hagree
    cases hagree with
    | ok hflow hf =>
      rw [perform_of_ok hx, perform_of_ok hx', hm.traceLines]
      exact (hm.counting hf).follow i.length hflow _
    | error hc hf =>
      rw [perform_of_error hx, perform_of_error hx', hm.traceLines]
      exact (hm.counting hf).fail hc _

end Linked

/-! ## The handles of one machine -/

/-- Every handle that a machine has on its stack, in its register or among its inputs is in a set. -/
structure Within (K : Handle → Prop) (m : Machine) : Prop where
  stack : ∀ x, .ref x ∈ m.stack.toList → K x
  r : ∀ x, m.r = .ref x → K x
  inputs : ∀ side x, .ref x ∈ (m.program.inputs side).toList → K x

variable {K : Handle → Prop}

theorem linked_self_iff {v : Value} : v.Linked link v ↔ ∀ x, v = .ref x → link x x := by
  constructor
  · rintro hv x rfl
    cases hv with | ref hxx => exact hxx
  · intro hv
    cases v with
    | raw bits => exact .raw bits
    | ref x => exact .ref (hv x rfl)

theorem forall₂_linked_self_iff {l : List Value} :
    List.Forall₂ (Value.Linked link) l l ↔ ∀ x, .ref x ∈ l → link x x := by
  simp only [List.forall₂_same, linked_self_iff]
  constructor
  · intro hl x hx
    exact hl _ hx x rfl
  · rintro hl v hv x rfl
    exact hl x hv

/-- A machine is linked to itself when each of its handles is. -/
theorem linked_self (hstack : ∀ x, .ref x ∈ m.stack.toList → link x x) (hr : ∀ x, m.r = .ref x → link x x)
    (hinputs : ∀ side x, .ref x ∈ (m.program.inputs side).toList → link x x) : m.Linked link m := by
  have hstatus : m.status.Linked link m.status := by
    cases m.status with
    | running => exact .running
    | halted => exact .halted
    | faulted c => exact .faulted (.same c)
  refine ⟨⟨rfl, rfl, fun side => ?_⟩, rfl, ⟨rfl, ?_⟩, linked_self_iff.mpr hr, rfl, rfl, hstatus, rfl, rfl⟩
  · exact forall₂_linked_self_iff.mpr (hinputs side)
  · exact forall₂_linked_self_iff.mpr fun x hx => hstack x (List.mem_reverse.mp hx)

/-- A machine is within a set when it is linked to itself by the equality on the set. -/
theorem within_iff_linked : m.Within K ↔ m.Linked (fun x y => x = y ∧ K x) m := by
  constructor
  · intro hm
    exact linked_self (fun x hx => ⟨rfl, hm.stack x hx⟩) (fun x hx => ⟨rfl, hm.r x hx⟩) fun side x hx =>
      ⟨rfl, hm.inputs side x hx⟩
  · intro hm
    refine ⟨fun x hx => ?_, fun x hx => ?_, fun side x hx => ?_⟩
    · exact (forall₂_linked_self_iff.mp hm.stack.values x (List.mem_reverse.mpr hx)).2
    · exact (linked_self_iff.mp hm.r x hx).2
    · exact (forall₂_linked_self_iff.mp (hm.program.inputs side) x hx).2

/-- An answer is linked to itself when what it gives is. -/
theorem alike_self {a : Heap.Call} (hhandle : ∀ x, a.answer h = .ok (.handle x) → link x x)
    (hvalue : ∀ x, a.answer h = .ok (.value (.ref x)) → link x x) : Heap.Alike link (a.answer h) (a.answer h) := by
  cases hans : a.answer h with
  | error e => exact .error (.same e)
  | ok answer =>
    refine .ok ?_
    cases answer with
    | handle x => exact .handle (hhandle x hans)
    | value v => exact .value (linked_self_iff.mpr fun x hv => hvalue x (hv ▸ hans))
    | size n => exact .size n
    | done => exact .done
    | gone yes => exact .gone yes
    | count n => exact .count n

/-- The handles that a call goes to the heap with. -/
theorem within_of_linked {a a' : Heap.Call} (hl : a.Linked (fun x y => x = y ∧ K x) a') :
    (∀ x, a.handle? = some x → K x) ∧ ∀ x slot y, a = .write x slot (.ref y) → K y := by
  constructor
  · intro x hx
    cases hl with
    | allocate n => cases hx
    | read _ hxy | write _ hxy _ | sizeOf hxy | retain hxy | release hxy => cases hx; exact hxy.2
  · rintro x slot y rfl
    cases hl with | write _ _ hv => cases hv with | ref hxy => exact hxy.2

theorem Within.heapCall? (hm : m.Within K) {a : Heap.Call} (ha : m.heapCall? = some a) :
    (∀ x, a.handle? = some x → K x) ∧ ∀ x slot y, a = .write x slot (.ref y) → K y := by
  rcases (within_iff_linked.mp hm).heapCall? with ⟨hnone, -⟩ | ⟨b, b', hb, -, hl⟩
  · rw [ha] at hnone; cases hnone
  · rw [ha] at hb
    cases hb
    exact within_of_linked hl

/-- What a step does to the heap is about a handle of the machine, or is an object made. What it writes is the
machine's, too. -/
theorem Within.event (hm : m.Within K) {ev : Heap.Event} (he : m.heapCall?.bind (·.event h) = some ev) :
    ((∃ x, ev = .made x) ∨ ∃ x, ev.handle? = some x ∧ K x) ∧ ∀ x slot y, ev = .wrote x slot (.ref y) → K y := by
  obtain ⟨a, ha, he⟩ := Option.bind_eq_some_iff.mp he
  obtain ⟨hhandle, hvalue⟩ := hm.heapCall? ha
  constructor
  · rcases Heap.Call.event_cases he with hmade | ⟨x, hx, hev⟩
    · exact .inl hmade
    · exact .inr ⟨x, hev, hhandle x hx⟩
  · rintro x slot y rfl
    exact hvalue x slot y (Heap.Call.write_of_event he)

/-- A step adds to the handles of a machine only what an allocation gives and what lies in the objects that they
name. -/
theorem Within.step (hm : m.Within K) (hmade : ∀ x, m.heapCall?.bind (·.event h) = some (.made x) → K x)
    (hfound : ∀ x y, K x → h.isValid x = true → .ref y ∈ h.slotsAt x.index → K y) : (m.step h).1.Within K := by
  refine within_iff_linked.mpr ((within_iff_linked.mp hm).step fun a a' ha ha' _ => ?_).machine
  rw [ha] at ha'
  cases ha'
  refine alike_self (fun x hx => ⟨rfl, hmade x ?_⟩) fun y hy => ⟨rfl, ?_⟩
  · rw [ha]
    exact Heap.Call.event_of_handle hx
  · obtain ⟨x, slot, rfl, hx, hmem⟩ := Heap.Call.read_of_value hy
    exact hfound x y ((hm.heapCall? ha).1 x rfl) hx hmem

end Machine

end StackVM
