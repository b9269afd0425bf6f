/-
  StackVM.Proofs.Stack — the operand stack is a bounded list.

  A list with the topmost value in front, on which nothing more is put once it has as many values as the stack has
  cells, is all that can be seen of a stack. `perform` is an operation on the stack and `performOn` the same on the
  list; the caller hands over a variable for a value and sees whether the operation succeeds and what the variable
  holds then.

  - `Shows`: what a stack shows is the list, from the other end.
  - `Shows.perform`, `Shows.run`: after one operation, and hence after any number, with the same answers.
  - `bounded_list`: so it is from the creation of a stack on, and what lies above the top makes no difference.
-/

import StackVM.Proofs.Machine.Handles

namespace StackVM

namespace Stack

/-! ## Operations and answers -/

/-- What is asked of a stack. -/
inductive Op
  | push (v : Value)
  /-- The caller's variable holds `out`. -/
  | pop (out : Value)
  | peek (distance : Nat) (out : Value)
  | swapTop
  | clear
  deriving DecidableEq, Repr

structure Answer where
  ok : Bool
  /-- What the caller's variable holds afterwards, if there is one. -/
  out : Option Value
  deriving DecidableEq, Repr

/-- The variable that the caller hands over, as it is before. -/
def Op.out? : Op → Option Value
  | pop out => some out
  | peek _ out => some out
  | _ => none

/-- A value is written to the caller's variable where there is one to be had. -/
def Answer.written (v : Option Value) (out : Value) : Answer := ⟨v.isSome, some (v.getD out)⟩

def perform (s : Stack) : Op → Answer × Stack
  | .push v => (⟨(s.push v).1, none⟩, (s.push v).2)
  | .pop out => (.written s.pop.1 out, s.pop.2)
  | .peek d out => (.written (s.peek d) out, s)
  | .swapTop => (⟨s.swapTop.1, none⟩, s.swapTop.2)
  | .clear => (⟨true, none⟩, s.clear)

/-- The answers to one operation after the other, and the stack that is left. -/
def run (s : Stack) : List Op → List Answer × Stack
  | [] => ([], s)
  | op :: ops =>
    let here := s.perform op
    let rest := here.2.run ops
    (here.1 :: rest.1, rest.2)

/-! ## The same on lists -/

/-- An operation on a list of at most `n` values, the topmost one in front. -/
def performOn (n : Nat) (l : List Value) : Op → Answer × List Value
  | .push v => if l.length < n then (⟨true, none⟩, v :: l) else (⟨false, none⟩, l)
  | .pop out =>
    match l with
    | [] => (⟨false, some out⟩, [])
    | v :: l => (⟨true, some v⟩, l)
  | .peek d out => if h : d < l.length then (⟨true, some l[d]⟩, l) else (⟨false, some out⟩, l)
  | .swapTop =>
    match l with
    | v :: w :: l => (⟨true, none⟩, w :: v :: l)
    | l => (⟨false, none⟩, l)
  | .clear => (⟨true, none⟩, [])

def runOn (n : Nat) (l : List Value) : List Op → List Answer × List Value
  | [] => ([], l)
  | op :: ops =>
    let here := performOn n l op
    let rest := runOn n here.2 ops
    (here.1 :: rest.1, rest.2)

/-! ## What a stack shows -/

/-- What can be seen of a stack is a list, the topmost value in front, of at most `n` values. -/
structure Shows (n : Nat) (l : List Value) (s : Stack) : Prop where
  values : s.toList = l.reverse
  capacity : s.capacity = n
  size : s.size = l.length
  isEmpty : s.isEmpty = l.isEmpty
  isFull : s.isFull = (l.length == n)
  bounded : l.length ≤ n

variable {s s' : Stack} {n : Nat} {l : List Value}

theorem shows_of_values (hvalues : s.toList = l.reverse) (hcapacity : s.capacity = n) : Shows n l s := by
  have htop : s.top = l.length := by rw [← length_toList, hvalues, List.length_reverse]
  refine ⟨hvalues, hcapacity, htop, ?_, ?_, ?_⟩
  · rw [isEmpty, htop]
    cases l <;> rfl
  · rw [isFull, htop, ← hcapacity, Stack.capacity]
  · rw [← htop, ← hcapacity]
    exact s.top_le

theorem Shows.push (hs : Shows n l s) (v : Value) :
    (s.perform (.push v)).1 = (performOn n l (.push v)).1 ∧
      Shows n (performOn n l (.push v)).2 (s.perform (.push v)).2 := by
  have hcapacity : (s.push v).2.capacity = n := (capacity_push s v).trans hs.capacity
  by_cases hroom : l.length < n
  · have hlt : s.top < s.capacity := by
      rw [hs.capacity]
      exact Nat.lt_of_le_of_lt (Nat.le_of_eq hs.size) hroom
    obtain ⟨hok, hvalues⟩ := push_of_lt (v := v) hlt
    rw [hs.values, ← List.reverse_cons] at hvalues
    simp only [Stack.perform, performOn, if_pos hroom, hok]
    exact ⟨trivial, shows_of_values hvalues hcapacity⟩
  · have hfull : s.top = s.capacity := by
      rw [hs.capacity]
      exact hs.size.trans (Nat.le_antisymm hs.bounded (Nat.le_of_not_lt hroom))
    simp only [Stack.perform, performOn, if_neg hroom, push_of_full hfull]
    exact ⟨trivial, hs⟩

theorem Shows.pop (hs : Shows n l s) (out : Value) :
    (s.perform (.pop out)).1 = (performOn n l (.pop out)).1 ∧
      Shows n (performOn n l (.pop out)).2 (s.perform (.pop out)).2 := by
  have hcapacity : s.pop.2.capacity = n := (capacity_pop s).trans hs.capacity
  cases l with
  | nil =>
    simp only [Stack.perform, performOn, pop_of_empty hs.size]
    exact ⟨rfl, hs⟩
  | cons v l =>
    obtain ⟨htop, hvalues⟩ := pop_of_toList (hs.values.trans List.reverse_cons)
    simp only [Stack.perform, performOn, htop]
    exact ⟨rfl, shows_of_values hvalues hcapacity⟩

theorem Shows.peek (hs : Shows n l s) (d : Nat) : s.peek d = l[d]? := by
  rw [peek_eq, hs.values, List.reverse_reverse]

theorem Shows.swapTop (hs : Shows n l s) :
    (s.perform .swapTop).1 = (performOn n l .swapTop).1 ∧
      Shows n (performOn n l .swapTop).2 (s.perform .swapTop).2 := by
  have hcapacity : s.swapTop.2.capacity = n := (capacity_swapTop s).trans hs.capacity
  have hfew : l.length < 2 → s.swapTop = (false, s) := by
    intro hlt
    have htwo : ¬ 2 ≤ s.top := by
      rw [show s.top = l.length from hs.size]
      exact Nat.not_le_of_lt hlt
    rw [Stack.swapTop, dif_neg htwo]
  cases l with
  | nil =>
    simp only [Stack.perform, performOn, hfew (by decide)]
    exact ⟨trivial, hs⟩
  | cons v l =>
    cases l with
    | nil =>
      simp only [Stack.perform, performOn, hfew (show 1 < 2 by decide)]
      exact ⟨trivial, hs⟩
    | cons w l =>
      have hsplit : s.toList = l.reverse ++ [w, v] := by
        rw [hs.values, List.reverse_cons, List.reverse_cons, List.append_assoc]
        rfl
      obtain ⟨hok, hvalues⟩ := toList_swapTop hsplit
      simp only [Stack.perform, performOn, hok]
      refine ⟨trivial, shows_of_values ?_ hcapacity⟩
      rw [hvalues, List.reverse_cons, List.reverse_cons, List.append_assoc]
      rfl

/-- A stack and the list answer an operation alike, and then the stack shows the list again. -/
theorem Shows.perform (hs : Shows n l s) (op : Op) :
    (s.perform op).1 = (performOn n l op).1 ∧ Shows n (performOn n l op).2 (s.perform op).2 := by
  cases op with
  | push v => exact hs.push v
  | pop out => exact hs.pop out
  | peek d out =>
    simp only [Stack.perform, performOn, hs.peek]
    by_cases hd : d < l.length
    · rw [dif_pos hd, List.getElem?_eq_getElem hd]
      exact ⟨rfl, hs⟩
    · rw [dif_neg hd, List.getElem?_eq_none (Nat.le_of_not_lt hd)]
      exact ⟨rfl, hs⟩
  | swapTop => exact hs.swapTop
  | clear => exact ⟨rfl, shows_of_values (toList_clear s) hs.capacity⟩

theorem Shows.run (hs : Shows n l s) (ops : List Op) :
    (s.run ops).1 = (runOn n l ops).1 ∧ Shows n (runOn n l ops).2 (s.run ops).2 := by
  induction ops generalizing s l with
  | nil => exact ⟨rfl, hs⟩
  | cons op ops ih =>
    obtain ⟨hanswer, hnext⟩ := hs.perform op
    obtain ⟨hanswers, hlast⟩ := ih hnext
    exact ⟨congr (congrArg List.cons hanswer) hanswers, hlast⟩

/-! ## What follows -/

/-- An operation that fails changes nothing, what is left over above the top included, and writes nothing. -/
theorem perform_of_not_ok (s : Stack) (op : Op) (hfails : (s.perform op).1.ok = false) :
    s.perform op = (⟨false, op.out?⟩, s) := by
  cases op with
  | push v =>
    have hfull : ¬ s.top < s.cells.size := by
      intro hroom
      simp [perform, push, hroom] at hfails
    simp only [perform, push, dif_neg hfull, Op.out?]
  | pop out =>
    have hempty : ¬ 0 < s.top := by
      intro hpos
      simp [perform, pop, hpos, Answer.written] at hfails
    simp only [perform, pop, dif_neg hempty, Op.out?]
    rfl
  | peek d out =>
    have hfar : s.peek d = none := by simpa [perform, Answer.written] using hfails
    simp only [perform, hfar, Op.out?]
    rfl
  | swapTop =>
    have hfew : ¬ 2 ≤ s.top := by
      intro htwo
      simp [perform, swapTop, htwo] at hfails
    simp only [perform, swapTop, dif_neg hfew, Op.out?]
  | clear => cases hfails

theorem runOn_append (l : List Value) (ops ops' : List Op) :
    runOn n l (ops ++ ops') =
      ((runOn n l ops).1 ++ (runOn n (runOn n l ops).2 ops').1, (runOn n (runOn n l ops).2 ops').2) := by
  induction ops generalizing l with
  | nil => rfl
  | cons op ops ih =>
    simp only [List.cons_append, runOn, ih]

theorem runOn_push (l vs : List Value) (hroom : l.length + vs.length ≤ n) :
    runOn n l (vs.map .push) = (vs.map fun _ => ⟨true, none⟩, vs.reverse ++ l) := by
  induction vs generalizing l with
  | nil => rfl
  | cons v vs ih =>
    rw [List.length_cons] at hroom
    have hnext := ih (v :: l) (by rw [List.length_cons]; omega)
    simp only [List.map_cons, runOn, performOn, if_pos (show l.length < n by omega), hnext, List.reverse_cons,
      List.append_assoc, List.cons_append, List.nil_append]

theorem runOn_pop (l vs outs : List Value) (hlen : outs.length = vs.length) :
    runOn n (vs ++ l) (outs.map .pop) = (vs.map fun v => ⟨true, some v⟩, l) := by
  induction vs generalizing outs with
  | nil => rw [List.length_eq_zero_iff.mp hlen]; rfl
  | cons v vs ih =>
    cases outs with
    | nil => cases hlen
    | cons out outs =>
      simp only [List.map_cons, List.cons_append, runOn, performOn, ih outs (Nat.succ.inj hlen)]

/-- A stack of any capacity that is allowed is a bounded list. It answers all that is asked of it as the list does and
shows the list; what fails changes nothing, not even the caller's variable; values come back last in first out; and
what is left over above the top is never seen again. -/
theorem bounded_list (n : Nat) (hn : n ≤ maxCapacity) :
    ∃ s, create n = .ok s ∧ ∀ ops : List Op,
      (s.run ops).1 = (runOn n [] ops).1 ∧ Shows n (runOn n [] ops).2 (s.run ops).2 ∧
      (∀ op, ((s.run ops).2.perform op).1.ok = false →
        (s.run ops).2.perform op = (⟨false, op.out?⟩, (s.run ops).2)) ∧
      (∀ vs outs : List Value, outs.length = vs.length → (s.run ops).2.size + vs.length ≤ n →
        ((s.run ops).2.run (vs.map .push ++ outs.map .pop)).1 =
            (vs.map fun _ => ⟨true, none⟩) ++ vs.reverse.map (fun v => ⟨true, some v⟩) ∧
          Shows n (runOn n [] ops).2 ((s.run ops).2.run (vs.map .push ++ outs.map .pop)).2) ∧
      (∀ s' : Stack, s'.capacity = n → s'.toList = (s.run ops).2.toList → ∀ ops' : List Op,
        (s'.run ops').1 = ((s.run ops).2.run ops').1 ∧
          (s'.run ops').2.toList = ((s.run ops).2.run ops').2.toList) := by
  refine ⟨empty n, by rw [create, if_neg (Nat.not_lt_of_le hn)], fun ops => ?_⟩
  have hempty : Shows n [] (empty n) := shows_of_values (toList_empty n) (by simp [capacity, empty])
  obtain ⟨hanswers, hshows⟩ := hempty.run ops
  generalize ((empty n).run ops).2 = s at hshows ⊢
  generalize (runOn n [] ops).2 = l at hshows ⊢
  refine ⟨hanswers, hshows, fun op => perform_of_not_ok s op, fun vs outs hlen hroom => ?_,
    fun s' hcap hvalues ops' => ?_⟩
  · have hback := runOn_pop (n := n) l vs.reverse outs (by rw [hlen, List.length_reverse])
    have hthere : runOn n l (vs.map .push ++ outs.map .pop) =
        (vs.map (fun _ => ⟨true, none⟩) ++ vs.reverse.map (fun v => ⟨true, some v⟩), l) := by
      rw [runOn_append, runOn_push l vs (hshows.size ▸ hroom), hback]
    have hboth := hshows.run (vs.map .push ++ outs.map .pop)
    rwa [hthere] at hboth
  · have hshows' : Shows n l s' := shows_of_values (hvalues.trans hshows.values) hcap
    obtain ⟨hsame, hlast⟩ := hshows.run ops'
    obtain ⟨hsame', hlast'⟩ := hshows'.run ops'
    exact ⟨hsame'.trans hsame.symm, hlast'.values.trans hlast.values.symm⟩

/-- Two values fit and a third does not. Once there are none left the variable keeps the value it had. -/
theorem bounded_list_of_two : 2 ≤ maxCapacity ∧ ∃ s, create 2 = .ok s ∧
    let ops : List Op := [.push (.raw 1), .push (.raw 2), .push (.raw 3), .swapTop, .pop (.raw 9), .peek 1 (.raw 9),
      .pop (.raw 9), .pop (.raw 9)]
    (s.run ops).1 = [⟨true, none⟩, ⟨true, none⟩, ⟨false, none⟩, ⟨true, none⟩, ⟨true, some (.raw 1)⟩,
        ⟨false, some (.raw 9)⟩, ⟨true, some (.raw 2)⟩, ⟨false, some (.raw 9)⟩] ∧
      Shows 2 [] (s.run ops).2 := by
  have hcapacity : 2 ≤ maxCapacity := by decide
  obtain ⟨s, hs, hops⟩ := bounded_list 2 hcapacity
  obtain ⟨hanswers, hshows, -⟩ := hops [.push (.raw 1), .push (.raw 2), .push (.raw 3), .swapTop, .pop (.raw 9),
    .peek 1 (.raw 9), .pop (.raw 9), .pop (.raw 9)]
  exact ⟨hcapacity, s, hs, hanswers, hshows⟩

end Stack

end StackVM
