/-
  StackVM.Proofs.Heap.Worklist — how long a collection looks for what can be reached.

  Marking takes objects off the gray list and puts others on it, so the list may well get longer on the way. But an
  object is marked before it is put there, and none that is marked is put there again. `Traced` follows a collection
  round by round and takes down everything that has been put on the list, the objects of the roots first.

  - `Marking.gray_visitAll`, `Marking.unmarked_visitAll`: what visiting values puts on the list, and that as many
    objects fewer are without a mark.
  - `Listed`, `Traced.listed`: whatever has been put there was put there once, is marked and is the index of a live
    object.
  - `tracing_ends`: the rounds are no more than there are live objects, and then the list is empty.
-/

import StackVM.Proofs.Heap.Reachability

namespace StackVM

namespace Marking

/-! ## What is put on the list -/

/-- What visiting a value puts on the gray list. -/
def put (m : Marking) : Value → List UInt32
  | .raw _ => []
  | .ref x => if m.isNew x then [x.index] else []

/-- What visiting values puts on the gray list, in this order. -/
def puts (m : Marking) : List Value → List UInt32
  | [] => []
  | v :: vs => m.put v ++ (m.visit v).puts vs

/-- What looking into the next object puts on the gray list. -/
def nextPuts (m : Marking) : List UInt32 :=
  match m.gray with
  | [] => []
  | i :: rest => puts { m with gray := rest } (((m.entries[i.toNat]?).map (·.slots)).getD #[]).toList

variable {h : Heap} {m m' : Marking}

theorem gray_visit (m : Marking) (v : Value) : (m.visit v).gray = (m.put v).reverse ++ m.gray := by
  cases v with
  | raw _ => rfl
  | ref x =>
    simp only [visit, put]
    split <;> rfl

theorem gray_visitAll (m : Marking) (vs : List Value) : (m.visitAll vs).gray = (m.puts vs).reverse ++ m.gray := by
  induction vs generalizing m with
  | nil => rfl
  | cons v vs ih =>
    calc ((m.visit v).visitAll vs).gray
        = ((m.visit v).puts vs).reverse ++ ((m.put v).reverse ++ m.gray) := by rw [ih, gray_visit]
      _ = (m.puts (v :: vs)).reverse ++ m.gray := by rw [puts, List.reverse_append, List.append_assoc]

theorem unmarked_visit (m : Marking) (v : Value) : (m.visit v).unmarked + (m.put v).length = m.unmarked := by
  have hgray := congrArg List.length (m.gray_visit v)
  rw [List.length_append, List.length_reverse] at hgray
  rcases m.visit_cases v with hsame | ⟨hlonger, hless⟩
  · rw [hsame] at hgray ⊢
    omega
  · omega

theorem unmarked_visitAll (m : Marking) (vs : List Value) :
    (m.visitAll vs).unmarked + (m.puts vs).length = m.unmarked := by
  induction vs generalizing m with
  | nil => rfl
  | cons v vs ih =>
    have hrest := ih (m.visit v)
    have hhere := m.unmarked_visit v
    rw [puts, List.length_append]
    show ((m.visit v).visitAll vs).unmarked + _ = _
    omega

/-- What is put on the list is put there once, is marked from then on and not before, and is alive. -/
theorem puts_new (ha : Agrees h m) (vs : List Value) : (m.puts vs).Nodup ∧
    ∀ i ∈ m.puts vs, m.markedAt i = false ∧ (m.visitAll vs).markedAt i = true ∧ h.liveAt i.toNat = true := by
  have hadv := visitAll_advances ha vs
  obtain ⟨new, hgray, hnodup, hnew⟩ := hadv.gray
  have hputs : new = (m.puts vs).reverse := List.append_cancel_right (hgray.symm.trans (m.gray_visitAll vs))
  subst hputs
  refine ⟨(List.reverse_perm _).nodup_iff.mp hnodup, fun i hi => ?_⟩
  obtain ⟨hafter, hbefore⟩ := (hnew i).mp (List.mem_reverse.mpr hi)
  refine ⟨hbefore, hafter, ?_⟩
  rcases hadv.only i hafter with hmarked | ⟨x, -, hvalid, rfl⟩
  · rw [hbefore] at hmarked
    cases hmarked
  · exact Heap.liveAt_of_isValid hvalid

/-- A round takes the foremost object off the list and visits its slots. -/
theorem next?_eq_some (hn : m.next? = some m') : ∃ i rest vs, m.gray = i :: rest ∧
    m' = visitAll { m with gray := rest } vs ∧ m.nextPuts = puts { m with gray := rest } vs := by
  unfold next? at hn
  unfold nextPuts
  cases hgray : m.gray with
  | nil => rw [hgray] at hn; cases hn
  | cons i rest =>
    simp only [hgray, Option.some.injEq] at hn
    exact ⟨i, rest, _, rfl, hn.symm, rfl⟩

theorem gray_of_next?_eq_none (hn : m.next? = none) : m.gray = [] := by
  unfold next? at hn
  cases hgray : m.gray with
  | nil => rfl
  | cons i rest => rw [hgray] at hn; cases hn

end Marking

namespace Heap

open Marking

/-! ## Round by round -/

/-- A collection from the roots after `n` rounds. What has been put on the gray list so far is `pushed`, in this
order. -/
inductive Traced (h : Heap) (roots : List Value) : Nat → List UInt32 → Marking → Prop
  | start : Traced h roots 0 (puts ⟨h.entries, []⟩ roots) (visitAll ⟨h.entries, []⟩ roots)
  | next {n : Nat} {pushed : List UInt32} {m m' : Marking} : Traced h roots n pushed m → m.next? = some m' →
      Traced h roots (n + 1) (pushed ++ m.nextPuts) m'

/-- What holds of a marking after `n` rounds and of what has been put on the list until then. -/
structure Listed (h : Heap) (n : Nat) (pushed : List UInt32) (m : Marking) : Prop where
  agrees : Agrees h m
  once : pushed.Nodup
  marked : ∀ i ∈ pushed, m.markedAt i = true
  live : ∀ i ∈ pushed, h.liveAt i.toNat = true
  /-- Every round takes one off the list. -/
  taken : n + m.gray.length = pushed.length
  /-- Nothing gets on the list without a mark. -/
  left : pushed.length + m.unmarked = unmarked ⟨h.entries, []⟩

variable {h : Heap} {roots : List Value} {n : Nat} {pushed : List UInt32} {m m' : Marking}

theorem listed_start (h : Heap) (roots : List Value) :
    Listed h 0 (puts ⟨h.entries, []⟩ roots) (visitAll ⟨h.entries, []⟩ roots) := by
  have hsame : Agrees h ⟨h.entries, []⟩ := rfl
  obtain ⟨honce, hputs⟩ := puts_new hsame roots
  have hagrees := (visitAll_advances hsame roots).agrees
  refine ⟨hagrees, honce, fun i hi => (hputs i hi).2.1, fun i hi => (hputs i hi).2.2, ?_, ?_⟩
  · rw [gray_visitAll, List.append_nil, List.length_reverse, Nat.zero_add]
  · rw [Nat.add_comm, unmarked_visitAll]

theorem Listed.next (hl : Listed h n pushed m) (hn : m.next? = some m') :
    Listed h (n + 1) (pushed ++ m.nextPuts) m' := by
  obtain ⟨i, rest, vs, hgray, rfl, hnext⟩ := next?_eq_some hn
  -- the marking without the object that is looked into
  have hsame : Agrees h { m with gray := rest } := hl.agrees
  have hadv := visitAll_advances hsame vs
  obtain ⟨honce, hputs⟩ := puts_new hsame vs
  rw [hnext]
  refine ⟨hadv.agrees, ?_, fun j hj => ?_, fun j hj => ?_, ?_, ?_⟩
  · refine List.nodup_append.mpr ⟨hl.once, honce, fun j hj k hk heq => ?_⟩
    have hbefore : m.markedAt k = false := (hputs k hk).1
    rw [← heq, hl.marked j hj] at hbefore
    cases hbefore
  · rcases List.mem_append.mp hj with hj | hj
    · exact hadv.grows j (hl.marked j hj)
    · exact (hputs j hj).2.1
  · rcases List.mem_append.mp hj with hj | hj
    · exact hl.live j hj
    · exact (hputs j hj).2.2
  · have htaken := hl.taken
    rw [hgray, List.length_cons] at htaken
    rw [gray_visitAll, List.length_append, List.length_append, List.length_reverse]
    show n + 1 + (_ + rest.length) = _
    omega
  · have hleft := hl.left
    have hvisited := unmarked_visitAll { m with gray := rest } vs
    have hunmarked : unmarked { m with gray := rest } = m.unmarked := rfl
    rw [List.length_append]
    omega

theorem Traced.listed (ht : Traced h roots n pushed m) : Listed h n pushed m := by
  induction ht with
  | start => exact listed_start h roots
  | next _ hn ih => exact ih.next hn

/-- However far a collection has got, it comes to an end from there. -/
theorem Traced.finish (ht : Traced h roots n pushed m) :
    ∃ n' pushed' m', Traced h roots n' pushed' m' ∧ m'.next? = none ∧ m.finish = m'.entries := by
  induction m using Marking.finish.induct generalizing n pushed with
  | case1 m hn => exact ⟨n, pushed, m, ht, hn, by rw [Marking.finish, hn]⟩
  | case2 m m₁ hn ih =>
    obtain ⟨n', pushed', m', ht', hend, hfinish⟩ := ih (ht.next hn)
    exact ⟨n', pushed', m', ht', hend, by rw [Marking.finish, hn]; exact hfinish⟩

theorem unmarked_le_live (h : Heap) : unmarked ⟨h.entries, []⟩ ≤ h.entries.countP (·.live) := by
  refine Array.countP_mono_left fun e _ hlive => ?_
  rw [Bool.and_eq_true] at hlive
  exact hlive.1

/-- In a collection no index is put on the gray list twice, and none but those of live objects. Each round takes one
off, and there are no more rounds than live objects; then the list is empty, and the sweep goes by what has been
marked. -/
theorem tracing_ends (h : Heap) (roots : List Value) :
    (∀ n pushed m, Traced h roots n pushed m →
      pushed.Nodup ∧ (∀ i ∈ pushed, h.liveAt i.toNat = true) ∧ n + m.gray.length = pushed.length ∧
        pushed.length ≤ h.entries.countP (·.live)) ∧
    ∃ n pushed m, Traced h roots n pushed m ∧ m.gray = [] ∧ n = pushed.length ∧
      n ≤ h.entries.countP (·.live) ∧
      h.collect roots = if h.held.isEmpty then ({ h with entries := m.entries } : Heap).sweep else (0, h) := by
  have hrounds : ∀ n pushed m, Traced h roots n pushed m →
      pushed.Nodup ∧ (∀ i ∈ pushed, h.liveAt i.toNat = true) ∧ n + m.gray.length = pushed.length ∧
        pushed.length ≤ h.entries.countP (·.live) := by
    intro n pushed m ht
    have hl := ht.listed
    have hleft := hl.left
    have hlive := h.unmarked_le_live
    exact ⟨hl.once, hl.live, hl.taken, by omega⟩
  refine ⟨hrounds, ?_⟩
  obtain ⟨n, pushed, m, ht, hend, hfinish⟩ := (Traced.start : Traced h roots 0 _ _).finish
  obtain ⟨-, -, htaken, hle⟩ := hrounds n pushed m ht
  have hempty := gray_of_next?_eq_none hend
  rw [hempty, List.length_nil, Nat.add_zero] at htaken
  refine ⟨n, pushed, m, ht, hempty, htaken, htaken ▸ hle, ?_⟩
  rw [collect, mark, hfinish]

end Heap

end StackVM
