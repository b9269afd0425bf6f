/-
  StackVM.Proofs.Heap.Renaming — heaps that differ in where their objects lie.

  A permutation of the indices can be applied to a heap. Every entry moves, and so do the references in the slots and
  the indices on the free lists, each in its place. `Renaming p h` says that the permutation is one of the heap's own
  table: the rest of the indices stay where they are, and no entry leaves the window of its class. No operation with a
  handle can tell the difference, and none depends on which index is the lower one.

  - `entries_rename`: where an entry has gone.
  - `Sound.rename`: a sound heap stays sound.
  - `Call.answer_rename`, `Call.after_rename`: a renamed call on the renamed heap does what the call did, renamed.
-/

import Mathlib.Logic.Equiv.Basic
import StackVM.Proofs.Heap.Effects

namespace StackVM

/-! ## What has indices in it -/

section

variable (p : Equiv.Perm UInt32)

def Handle.rename (x : Handle) : Handle := { x with index := p x.index }

def Value.rename : Value → Value
  | .raw bits => .raw bits
  | .ref x => .ref (x.rename p)

def Entry.rename (e : Entry) : Entry := { e with slots := e.slots.map (Value.rename p) }

def SizeClass.rename (k : SizeClass) : SizeClass := { k with free := k.free.map p }

/-- An index that is refused lies outside the table, and such indices are not renamed. -/
def HeapError.rename : HeapError → HeapError
  | .stale x => .stale (x.rename p)
  | e => e

namespace Heap

/-- Where the entry was that a renaming brings to a position. -/
def origin (j : Nat) : Nat := if j < UInt32.size then (p.symm (UInt32.ofNat j)).toNat else j

def rename (h : Heap) : Heap where
  classes := h.classes.map (SizeClass.rename p)
  entries := h.entries.mapIdx fun j e => ((h.entries[origin p j]?).getD e).rename p
  capacity := h.capacity
  held := h.held.map p

/-- The permutation moves indices of the table only, and each within the window of its class. -/
structure Renaming (h : Heap) : Prop where
  outside : ∀ i : UInt32, h.entries.size ≤ i.toNat → p i = i
  window : ∀ n < h.classes.size, ∀ i : UInt32, (p i).toNat ∈ h.window n ↔ i.toNat ∈ h.window n

namespace Call

def rename : Call → Call
  | allocate n => allocate n
  | read x slot => read (x.rename p) slot
  | write x slot v => write (x.rename p) slot (v.rename p)
  | sizeOf x => sizeOf (x.rename p)
  | retain x => retain (x.rename p)
  | release x => release (x.rename p)
  | refCount x => refCount (x.rename p)

end Call

def Answer.rename : Answer → Answer
  | handle x => handle (x.rename p)
  | value v => value (v.rename p)
  | size n => size n
  | done => done
  | gone yes => gone yes
  | count n => count n

end Heap

end

variable {p : Equiv.Perm UInt32}

namespace Entry

theorem rename_revive (e : Entry) : e.revive.rename p = (e.rename p).revive := by
  simp [revive, rename, Value.rename]

theorem rename_kill (e : Entry) : e.kill.rename p = (e.rename p).kill := rfl

end Entry

namespace SizeClass

theorem rename_take (k : SizeClass) : k.take.rename p = (k.rename p).take := by
  simp [take, rename, List.map_tail]

theorem rename_recycle (k : SizeClass) (i : UInt32) : (k.recycle i).rename p = (k.rename p).recycle (p i) := rfl

end SizeClass

namespace Heap

variable {h : Heap}

/-! ## Where the entries go -/

theorem origin_eq_iff {j : Nat} {i : UInt32} : origin p j = i.toNat ↔ j = (p i).toNat := by
  unfold origin
  split
  next hj =>
    rw [UInt32.toNat_inj, Equiv.symm_apply_eq]
    constructor
    · intro he
      rw [← he, UInt32.toNat_ofNat_of_lt' hj]
    · rintro rfl
      exact UInt32.ofNat_toNat
  next hj =>
    have hi : i.toNat < UInt32.size := i.toNat_lt
    have hp : (p i).toNat < UInt32.size := (p i).toNat_lt
    constructor <;> intro he <;> omega

@[simp] theorem origin_apply (i : UInt32) : origin p (p i).toNat = i.toNat := origin_eq_iff.mpr rfl

/-- A position is a renamed index, or no index at all. -/
theorem origin_cases (j : Nat) : (∃ i : UInt32, j = (p i).toNat ∧ origin p j = i.toNat) ∨
    (UInt32.size ≤ j ∧ origin p j = j) := by
  by_cases hj : j < UInt32.size
  · left
    have hi : j = (p (p.symm (UInt32.ofNat j))).toNat := by
      rw [Equiv.apply_symm_apply, UInt32.toNat_ofNat_of_lt' hj]
    exact ⟨_, hi, origin_eq_iff.mpr hi⟩
  · right
    exact ⟨Nat.le_of_not_lt hj, if_neg hj⟩

@[simp] theorem size_rename (h : Heap) : (h.rename p).entries.size = h.entries.size := by
  simp [rename]

@[simp] theorem classes_rename (h : Heap) (n : Nat) :
    (h.rename p).classes[n]? = (h.classes[n]?).map (SizeClass.rename p) := by
  simp [rename]

@[simp] theorem classCount_rename (h : Heap) : (h.rename p).classes.size = h.classes.size := by
  simp [rename]

namespace Renaming

variable (hp : Renaming p h)
include hp

/-- The indices of the table go to indices of the table. -/
theorem lt_iff (i : UInt32) : (p i).toNat < h.entries.size ↔ i.toNat < h.entries.size := by
  constructor
  · intro hlt
    refine Nat.lt_of_not_le fun hle => ?_
    rw [hp.outside i hle] at hlt
    omega
  · intro hlt
    refine Nat.lt_of_not_le fun hle => ?_
    have hfixed : p i = i := p.injective (hp.outside (p i) hle)
    rw [hfixed] at hle
    omega

theorem origin_lt_iff (j : Nat) : origin p j < h.entries.size ↔ j < h.entries.size := by
  rcases origin_cases (p := p) j with ⟨i, rfl, hi⟩ | ⟨-, hj⟩
  · rw [hi, hp.lt_iff]
  · rw [hj]

theorem entries_rename (j : Nat) : (h.rename p).entries[j]? = (h.entries[origin p j]?).map (Entry.rename p) := by
  simp only [rename, Array.getElem?_mapIdx]
  by_cases hj : j < h.entries.size
  · have ho := (hp.origin_lt_iff j).mpr hj
    simp [Array.getElem?_eq_getElem hj, Array.getElem?_eq_getElem ho]
  · have ho := mt (hp.origin_lt_iff j).mp hj
    rw [Array.getElem?_eq_none (Nat.le_of_not_lt hj), Array.getElem?_eq_none (Nat.le_of_not_lt ho)]
    rfl

theorem entry_rename (i : UInt32) :
    (h.rename p).entries[(p i).toNat]? = (h.entries[i.toNat]?).map (Entry.rename p) := by
  rw [hp.entries_rename, origin_apply]

/-! ## Views -/

theorem isValid_rename (x : Handle) : (h.rename p).isValid (x.rename p) = h.isValid x := by
  have he := hp.entry_rename x.index
  simp only [isValid, Handle.rename] at he ⊢
  rw [he, Option.any_map]
  rfl

theorem slotsAt_rename (i : UInt32) : (h.rename p).slotsAt (p i) = (h.slotsAt i).map (Value.rename p) := by
  simp only [slotsAt, hp.entry_rename]
  cases h.entries[i.toNat]? with
  | none => simp
  | some e => rfl

theorem sizeAt_rename (i : UInt32) : (h.rename p).sizeAt (p i) = h.sizeAt i := by
  simp only [sizeAt, hp.slotsAt_rename, Array.size_map]

theorem generationAt_rename (i : UInt32) : (h.rename p).generationAt (p i) = h.generationAt i := by
  simp only [generationAt, hp.entry_rename, Option.map_map]
  rfl

theorem refCountAt_rename (i : UInt32) : (h.rename p).refCountAt (p i) = h.refCountAt i := by
  simp only [refCountAt, hp.entry_rename, Option.map_map]
  rfl

theorem classAt_rename (i : UInt32) : (h.rename p).classAt (p i) = h.classAt i := by
  simp only [classAt, hp.entry_rename, Option.map_map]
  rfl

theorem refusal_rename (x : Handle) : (h.rename p).refusal (x.rename p) = (h.refusal x).rename p := by
  unfold refusal
  rw [size_rename, show (x.rename p).index = p x.index from rfl]
  by_cases hi : x.index.toNat < h.entries.size
  · rw [if_pos ((hp.lt_iff x.index).mpr hi), if_pos hi]
    rfl
  · rw [if_neg (mt (hp.lt_iff x.index).mp hi), if_neg hi]
    simp only [HeapError.rename, hp.outside x.index (Nat.le_of_not_lt hi)]

end Renaming

/-- Two indices of the same window can be exchanged. -/
theorem renaming_swap {i j : UInt32} (hi : i.toNat < h.entries.size) (hj : j.toNat < h.entries.size)
    (hij : ∀ n, i.toNat ∈ h.window n ↔ j.toNat ∈ h.window n) : Renaming (Equiv.swap i j) h where
  outside k hk := Equiv.swap_apply_of_ne_of_ne (by rintro rfl; omega) (by rintro rfl; omega)
  window n _ k := by
    by_cases hki : k = i
    · rw [hki, Equiv.swap_apply_left, hij n]
    by_cases hkj : k = j
    · rw [hkj, Equiv.swap_apply_right, hij n]
    · rw [Equiv.swap_apply_of_ne_of_ne hki hkj]

/-! ## Updates -/

theorem rename_updateClass (n : Nat) {g g' : SizeClass → SizeClass} (hg : ∀ k, (g k).rename p = g' (k.rename p)) :
    (h.updateClass n g).rename p = (h.rename p).updateClass n g' := by
  have hclasses : ((h.updateClass n g).rename p).classes = ((h.rename p).updateClass n g').classes := by
    refine Array.ext_getElem? fun j => ?_
    rw [classes_rename, classes_updateClass, classes_updateClass, classes_rename]
    by_cases hj : n = j
    · rw [if_pos hj, if_pos hj, Option.map_map, Option.map_map]
      exact congrArg (Option.map · h.classes[j]?) (funext hg)
    · rw [if_neg hj, if_neg hj]
  exact congrArg (fun cs : Array SizeClass => ({ h.rename p with classes := cs } : Heap)) hclasses

namespace Renaming

theorem congr {h' : Heap} (hp : Renaming p h) (hsize : h'.entries.size = h.entries.size)
    (hcap : h'.capacity = h.capacity) (hclasses : h'.classes.size = h.classes.size) : Renaming p h' := by
  refine ⟨hsize ▸ hp.outside, fun n hn i => ?_⟩
  have hwindow : h'.window n = h.window n := by simp only [Heap.window, hcap]
  rw [hwindow]
  exact hp.window n (hclasses ▸ hn) i

theorem updateEntry (hp : Renaming p h) (i : UInt32) (f : Entry → Entry) : Renaming p (h.updateEntry i f) :=
  hp.congr (size_updateEntry h i f) rfl rfl

theorem updateClass (hp : Renaming p h) (n : Nat) (g : SizeClass → SizeClass) : Renaming p (h.updateClass n g) :=
  hp.congr rfl rfl (size_updateClass h n g)

variable (hp : Renaming p h)
include hp

theorem rename_updateEntry (i : UInt32) {f f' : Entry → Entry} (hf : ∀ e, (f e).rename p = f' (e.rename p)) :
    (h.updateEntry i f).rename p = (h.rename p).updateEntry (p i) f' := by
  have hentries : ((h.updateEntry i f).rename p).entries = ((h.rename p).updateEntry (p i) f').entries := by
    refine Array.ext_getElem? fun j => ?_
    rw [(hp.updateEntry i f).entries_rename, entries_updateEntry, entries_updateEntry, hp.entries_rename]
    have hat : i.toNat = origin p j ↔ (p i).toNat = j := eq_comm.trans (origin_eq_iff.trans eq_comm)
    by_cases hj : (p i).toNat = j
    · rw [if_pos hj, if_pos (hat.mpr hj), Option.map_map, Option.map_map]
      exact congrArg (Option.map · h.entries[origin p j]?) (funext hf)
    · rw [if_neg hj, if_neg (mt hat.mp hj)]
  exact congrArg (fun es : Array Entry => ({ h.rename p with entries := es } : Heap)) hentries

theorem rename_handOut (n : Nat) (i : UInt32) : (h.handOut n i).2.rename p = ((h.rename p).handOut n (p i)).2 := by
  show ((h.updateClass n SizeClass.take).updateEntry i Entry.revive).rename p = _
  rw [(hp.updateClass n _).rename_updateEntry i Entry.rename_revive, rename_updateClass n SizeClass.rename_take]
  rfl

theorem rename_retire (i : UInt32) : (h.retire i).rename p = (h.rename p).retire (p i) := by
  have hclass (h₀ : Heap) : (h₀.updateClass (h.classAt i) (·.recycle i)).rename p =
      (h₀.rename p).updateClass (h.classAt i) (·.recycle (p i)) :=
    rename_updateClass _ fun k => SizeClass.rename_recycle k i
  unfold retire
  rw [hclass, hp.rename_updateEntry i Entry.rename_kill, hp.classAt_rename]

/-- Counts are not renamed. -/
theorem rename_updateCount (i : UInt32) (count : UInt32 → UInt32) :
    (h.updateEntry i fun e => { e with refCount := count e.refCount }).rename p =
      (h.rename p).updateEntry (p i) fun e => { e with refCount := count e.refCount } :=
  hp.rename_updateEntry i fun _ => rfl

theorem rename_setSlot (i : UInt32) (slot : Nat) (v : Value) :
    (h.setSlot i slot v).rename p = (h.rename p).setSlot (p i) slot (v.rename p) :=
  hp.rename_updateEntry i fun e => by simp [Entry.rename, Array.map_setIfInBounds]

end Renaming

/-! ## Operations -/

/-- What an operation comes to on the renamed heap. -/
def renamed {α : Type} (p : Equiv.Perm UInt32) (r : α → α) :
    EStateM.Result HeapError Heap α → EStateM.Result HeapError Heap α
  | .ok a h => .ok (r a) (h.rename p)
  | .error e h => .error (e.rename p) (h.rename p)

theorem outcome_renamed {α : Type} {r : α → α} {act act' : HeapM α} (ha : act' (h.rename p) = renamed p r (act h)) :
    outcome act' (h.rename p) = ((outcome act h).map r).mapError (HeapError.rename p) := by
  unfold outcome
  rw [ha]
  cases act h <;> rfl

/-- An answer is what an operation gives, wrapped up, and of that only what has an index in it is renamed. -/
theorem answer_renamed {α : Type} {r : α → α} {act act' : HeapM α} (wrap : α → Answer)
    (ha : act' (h.rename p) = renamed p r (act h)) (hr : ∀ a, wrap (r a) = (wrap a).rename p) :
    (outcome act' (h.rename p)).map wrap =
      (((outcome act h).map wrap).map (Answer.rename p)).mapError (HeapError.rename p) := by
  rw [outcome_renamed ha]
  cases outcome act h with
  | ok a => exact congrArg Except.ok (hr a)
  | error e => rfl

theorem after_renamed {α : Type} {r : α → α} {act act' : HeapM α} (ha : act' (h.rename p) = renamed p r (act h)) :
    after act' (h.rename p) = (after act h).rename p := by
  unfold after
  rw [ha]
  cases act h <;> rfl

namespace Renaming

variable (hp : Renaming p h)
include hp

/-- An operation that checks a handle first is the same on the renamed heap if what follows is. -/
theorem bind_check_rename {α : Type} {r : α → α} (x : Handle) {k k' : Unit → HeapM α}
    (hk : k' () (h.rename p) = renamed p r (k () h)) :
    (check (x.rename p) >>= k') (h.rename p) = renamed p r ((check x >>= k) h) := by
  cases hx : h.isValid x with
  | true => rw [bind_check_of_valid hx, bind_check_of_valid ((hp.isValid_rename x).trans hx), hk]
  | false =>
    rw [bind_check_of_not_valid hx, bind_check_of_not_valid ((hp.isValid_rename x).trans hx), hp.refusal_rename]
    rfl

theorem allocate_rename (n : Nat) : allocate n (h.rename p) = renamed p (Handle.rename p) (allocate n h) := by
  unfold allocate
  rw [classes_rename, classCount_rename]
  cases h.classes[n]? with
  | none => rfl
  | some k =>
    cases hf : k.free with
    | nil => simp [SizeClass.rename, hf, renamed, HeapError.rename, show (h.rename p).capacity = h.capacity from rfl]
    | cons i rest =>
      have hx := generationAt_handOut (h := h) n i
      have hx' := generationAt_handOut (h := h.rename p) n (p i)
      rw [hp.generationAt_rename] at hx'
      simp only [Option.map_some, SizeClass.rename, hf, List.map_cons, renamed, hx, hx', hp.rename_handOut]
      rfl

theorem readSlot_rename (x : Handle) (slot : Nat) :
    readSlot (x.rename p) slot (h.rename p) = renamed p (Value.rename p) (readSlot x slot h) := by
  refine hp.bind_check_rename x ?_
  simp only [readAt, Handle.rename, hp.slotsAt_rename, hp.sizeAt_rename, Array.getElem?_map]
  cases (h.slotsAt x.index)[slot]? <;> rfl

theorem writeSlot_rename (x : Handle) (slot : Nat) (v : Value) :
    writeSlot (x.rename p) slot (v.rename p) (h.rename p) = renamed p id (writeSlot x slot v h) := by
  refine hp.bind_check_rename x ?_
  simp only [writeAt, Handle.rename, hp.sizeAt_rename]
  by_cases hslot : slot < h.sizeAt x.index
  · rw [if_pos hslot, if_pos hslot, ← hp.rename_setSlot]
    rfl
  · rw [if_neg hslot, if_neg hslot]
    rfl

theorem sizeOf_rename (x : Handle) : sizeOf (x.rename p) (h.rename p) = renamed p id (sizeOf x h) := by
  refine hp.bind_check_rename x ?_
  exact congrArg (fun n => EStateM.Result.ok n (h.rename p)) (hp.sizeAt_rename x.index)

theorem refCount_rename (x : Handle) : refCount (x.rename p) (h.rename p) = renamed p id (refCount x h) := by
  refine hp.bind_check_rename x ?_
  exact congrArg (fun n => EStateM.Result.ok n (h.rename p)) (hp.refCountAt_rename x.index)

theorem retain_rename (x : Handle) : retain (x.rename p) (h.rename p) = renamed p id (retain x h) := by
  refine hp.bind_check_rename x ?_
  exact congrArg (EStateM.Result.ok ()) (hp.rename_updateCount x.index (· + 1)).symm

theorem release_rename (x : Handle) : release (x.rename p) (h.rename p) = renamed p id (release x h) := by
  refine hp.bind_check_rename x ?_
  show EStateM.Result.ok ((h.rename p).dropReference (p x.index)).1 ((h.rename p).dropReference (p x.index)).2 =
    .ok (h.dropReference x.index).1 ((h.dropReference x.index).2.rename p)
  unfold dropReference
  rw [hp.refCountAt_rename]
  by_cases hpos : 0 < h.refCountAt x.index - 1
  · rw [if_pos hpos, if_pos hpos]
    exact congrArg (EStateM.Result.ok false) (hp.rename_updateCount x.index fun _ => _).symm
  · rw [if_neg hpos, if_neg hpos]
    exact congrArg (EStateM.Result.ok true) (hp.rename_retire x.index).symm

/-! ## Calls -/

/-- A renamed call gets the renamed answer. -/
theorem answer_rename (a : Call) : (a.rename p).answer (h.rename p) =
    ((a.answer h).map (Answer.rename p)).mapError (HeapError.rename p) := by
  cases a with
  | allocate n => exact answer_renamed .handle (hp.allocate_rename n) fun _ => rfl
  | read x slot => exact answer_renamed .value (hp.readSlot_rename x slot) fun _ => rfl
  | write x slot v => exact answer_renamed (fun _ => .done) (hp.writeSlot_rename x slot v) fun _ => rfl
  | sizeOf x => exact answer_renamed .size (hp.sizeOf_rename x) fun _ => rfl
  | retain x => exact answer_renamed (fun _ => .done) (hp.retain_rename x) fun _ => rfl
  | release x => exact answer_renamed .gone (hp.release_rename x) fun _ => rfl
  | refCount x => exact answer_renamed .count (hp.refCount_rename x) fun _ => rfl

/-- And it leaves the renamed heap. -/
theorem after_rename (a : Call) : (a.rename p).after (h.rename p) = (a.after h).rename p := by
  cases a with
  | allocate n => exact after_renamed (hp.allocate_rename n)
  | read x slot => exact after_renamed (hp.readSlot_rename x slot)
  | write x slot v => exact after_renamed (hp.writeSlot_rename x slot v)
  | sizeOf x => exact after_renamed (hp.sizeOf_rename x)
  | retain x => exact after_renamed (hp.retain_rename x)
  | release x => exact after_renamed (hp.release_rename x)
  | refCount x => exact after_renamed (hp.refCount_rename x)

end Renaming

/-! ## The table keeps its shape -/

theorem Renaming.after_check {x : Handle} {α : Type} {k : Unit → HeapM α} (hp : Renaming p h)
    (hk : Renaming p (after (k ()) h)) : Renaming p (after (check x >>= k) h) := by
  cases hx : h.isValid x with
  | true => rwa [(after_given_of_valid hx k).1]
  | false => rwa [(after_given_of_not_valid hx k).1]

/-- After a call the permutation is still one of the table. -/
theorem Renaming.after (hp : Renaming p h) (a : Call) : Renaming p (a.after h) := by
  cases a with
  | allocate n =>
    simp only [Call.after, Heap.after]
    rcases allocate_cases (h := h) n with ⟨k, i, rest, -, -, ha⟩ | ⟨k, -, -, ha⟩ | ⟨-, ha⟩
    · rw [ha]; exact (hp.updateClass n _).updateEntry i _
    · rw [ha]; exact hp
    · rw [ha]; exact hp
  | read x slot => exact hp.after_check (by rwa [after_readAt])
  | sizeOf x | refCount x => exact hp.after_check hp
  | retain x => exact hp.after_check (hp.updateEntry x.index _)
  | write x slot v =>
    refine hp.after_check ?_
    rcases writeAt_cases (h := h) x.index slot v with ⟨-, ha, -⟩ | ⟨ha, -⟩
    · rw [ha]; exact hp.updateEntry x.index _
    · rwa [ha]
  | release x =>
    refine hp.after_check ?_
    show Renaming p (h.dropReference x.index).2
    unfold dropReference
    by_cases hpos : 0 < h.refCountAt x.index - 1
    · rw [if_pos hpos]; exact hp.updateEntry x.index _
    · rw [if_neg hpos]; exact (hp.updateEntry x.index _).updateClass _ _

/-! ## Sound heaps -/

variable {c : Config}

theorem Renaming.origin_div (hp : Renaming p h) (hb : Books c h) {j : Nat} (hj : j < h.entries.size) :
    origin p j / c.capacity = j / c.capacity := by
  rcases origin_cases (p := p) j with ⟨i, rfl, hi⟩ | ⟨-, ho⟩
  · obtain ⟨k, hk⟩ := hb.class_of_index hj
    have hn := (Array.getElem?_eq_some_iff.mp hk).1
    rw [hi]
    exact hb.mem_window.mp ((hp.window _ hn i).mp (hb.mem_window.mpr rfl))
  · rw [ho]

theorem Renaming.liveAt_rename (hp : Renaming p h) (j : Nat) : (h.rename p).liveAt j = h.liveAt (origin p j) := by
  simp only [liveAt, hp.entries_rename, Option.any_map]
  rfl

theorem Books.rename (hb : Books c h) (hp : Renaming p h) : Books c (h.rename p) where
  capacityPos := hb.capacityPos
  tableSmall := hb.tableSmall
  capacity := hb.capacity
  classCount := (classCount_rename h).trans hb.classCount
  tableSize := (size_rename h).trans hb.tableSize
  shape j e' he' := by
    rw [hp.entries_rename] at he'
    obtain ⟨e, he, rfl⟩ := Option.map_eq_some_iff.mp he'
    have hj : j < h.entries.size := (hp.origin_lt_iff j).mp (lt_of_entry he)
    have hshape := hb.shape _ e he
    rw [hp.origin_div hb hj] at hshape
    exact ⟨hshape.1, by simpa [Entry.rename] using hshape.2⟩
  classShape n k' hk' := by
    rw [classes_rename] at hk'
    obtain ⟨k, hk, rfl⟩ := Option.map_eq_some_iff.mp hk'
    exact hb.classShape n k hk
  freeNodup n k' hk' := by
    rw [classes_rename] at hk'
    obtain ⟨k, hk, rfl⟩ := Option.map_eq_some_iff.mp hk'
    exact List.Pairwise.map p (fun _ _ hne he => hne (p.injective he)) (hb.freeNodup n k hk)
  memFree n k' hk' i' := by
    rw [classes_rename] at hk'
    obtain ⟨k, hk, rfl⟩ := Option.map_eq_some_iff.mp hk'
    obtain ⟨i, rfl⟩ := p.surjective i'
    have hmem : p i ∈ (k.rename p).free ↔ i ∈ k.free := by simp [SizeClass.rename]
    rw [hmem, hb.memFree n k hk i, size_rename, hp.lt_iff, hp.liveAt_rename, origin_apply]
    constructor
    · rintro ⟨hn, hlt, hlive⟩
      rw [← hp.origin_div hb ((hp.lt_iff i).mpr hlt), origin_apply]
      exact ⟨hn, hlt, hlive⟩
    · rintro ⟨hn, hlt, hlive⟩
      rw [← hp.origin_div hb ((hp.lt_iff i).mpr hlt), origin_apply] at hn
      exact ⟨hn, hlt, hlive⟩
  counted n k' hk' := by
    rw [classes_rename] at hk'
    obtain ⟨k, hk, rfl⟩ := Option.map_eq_some_iff.mp hk'
    simpa [SizeClass.rename] using hb.counted n k hk

theorem Sound.rename (hs : Sound c h) (hp : Renaming p h) : Sound c (h.rename p) where
  books := hs.books.rename hp
  unmarked j e' he' := by
    rw [hp.entries_rename] at he'
    obtain ⟨e, he, rfl⟩ := Option.map_eq_some_iff.mp he'
    exact hs.unmarked _ e he

end Heap

end StackVM
