/-
  StackVM.Proofs.Command.Routes — a program as a source and as an image.

  `asm` stores the image of a source, and from then on there are two files that hold one program. What an assembly
  comes to is an image that can be read back, since its entry is not past the end of its code; and what is stored is
  what is read. So both files load as the same program and are listed in the same way.

  - `loadSource_cases`, `run_loadImage_of_file`: when a source and when an image loads.
  - `asm_of_success`: what `asm` has done if it succeeds.
  - `disasm_of_loadCode`: what `disasm` writes of a program that loads.
  - `routes_agree`: all of it, from the command line.
-/

import StackVM.Command.Line
import StackVM.Proofs.Assembly.Backpatch
import StackVM.Proofs.Code.Images
import StackVM.Proofs.Files.Directories

namespace StackVM

namespace Command

open Text (ofString)
open FileM (run_bind)

variable {t t' : FileTree} {path target : Text} {i : Image} {log : List Log.Line}

/-! ## Loading -/

/-- The text that an opened file is read as. -/
theorem run_readText (path : Text) (t : FileTree) : (Files.readText path : FileM _).run t =
    (match t.openFile path with
      | none => .error (.cannotOpen path)
      | some .directory => .ok []
      | some (.file bytes) => .ok bytes.toList, t) := by
  show (match t.openFile path with | none => _ | some .directory => _ | some (.file bytes) => _ : FileM _).run t = _
  split <;> rfl

theorem run_readBytes (path : Text) (t : FileTree) : (Files.readBytes path : FileM _).run t =
    (match t.openFile path with
      | none => .error (.cannotOpen path)
      | some .directory => .error .isDirectory
      | some (.file bytes) => .ok bytes, t) := by
  show (match t.openFile path with | none => _ | some .directory => _ | some (.file bytes) => _ : FileM _).run t = _
  split <;> rfl

/-- The image of a source. -/
def imageFrom (source : Text) : Image := ⟨UInt64.ofNat (assemble source).entry, (assemble source).code⟩

/-- A file can be opened for reading, and has this text. A directory has none. -/
def Reads (t : FileTree) (path text : Text) : Prop :=
  (∃ bytes, t.openFile path = some (.file bytes) ∧ text = bytes.toList) ∨
    t.openFile path = some .directory ∧ text = []

theorem Reads.unique {t : FileTree} {path text text' : Text} (h : Reads t path text) (h' : Reads t path text') :
    text = text' := by
  rcases h with ⟨bytes, hopen, rfl⟩ | ⟨hopen, rfl⟩
  · rcases h' with ⟨bytes', hopen', rfl⟩ | ⟨hopen', -⟩
    · rw [hopen] at hopen'
      cases hopen'
      rfl
    · rw [hopen] at hopen'
      cases hopen'
  · rcases h' with ⟨bytes', hopen', -⟩ | ⟨-, rfl⟩
    · rw [hopen] at hopen'
      cases hopen'
    · rfl

/-- A source does not load, or it can be read and is assembled. All files stay as they are. -/
theorem loadSource_cases (path : Text) (t : FileTree) :
    (∃ log, (loadSource path : FileM _).run t = ((none, log), t)) ∨
    ∃ text, Reads t path text ∧ (assemble text).ok = true ∧
      (loadSource path : FileM _).run t = ((some (imageFrom text), []), t) := by
  have hassembled : ∀ text, (∃ log, imageOf path (assemble text) = (none, log)) ∨
      (assemble text).ok = true ∧ imageOf path (assemble text) = (some (imageFrom text), []) := by
    intro text
    unfold imageOf
    split
    next hok => exact .inr ⟨hok, rfl⟩
    next => exact .inl ⟨_, rfl⟩
  rw [loadSource, run_bind, run_readText]
  cases hopen : t.openFile path with
  | none => exact .inl ⟨_, rfl⟩
  | some opened =>
    cases opened with
    | directory =>
      rcases hassembled [] with ⟨log, hlog⟩ | ⟨hok, himage⟩
      · exact .inl ⟨log, congrArg (·, t) hlog⟩
      · exact .inr ⟨[], .inr ⟨hopen, rfl⟩, hok, congrArg (·, t) himage⟩
    | file bytes =>
      rcases hassembled bytes.toList with ⟨log, hlog⟩ | ⟨hok, himage⟩
      · exact .inl ⟨log, congrArg (·, t) hlog⟩
      · exact .inr ⟨bytes.toList, .inl ⟨bytes, hopen, rfl⟩, hok, congrArg (·, t) himage⟩

theorem entry_le_of_ok {source : Text} (hok : (assemble source).ok = true) :
    (imageFrom source).entry.toNat ≤ (imageFrom source).code.size := by
  obtain ⟨is, h⟩ := Assembly.assembled hok
  exact Nat.le_trans (Nat.mod_le _ _) h.entry_le

/-- Loading a source leaves all files as they are, and what loads can be stored. -/
theorem run_loadSource (path : Text) (t : FileTree) : ∃ x, (loadSource path : FileM _).run t = (x, t) ∧
    ∀ i log, x = (some i, log) → i.entry.toNat ≤ i.code.size ∧ log = [] := by
  rcases loadSource_cases path t with ⟨log, hrun⟩ | ⟨text, -, hok, hrun⟩
  · exact ⟨_, hrun, fun i log hx => by cases hx⟩
  · exact ⟨_, hrun, fun i log hx => by cases hx; exact ⟨entry_le_of_ok hok, rfl⟩⟩

theorem run_loadImage_of_file {bytes : Bytes} (hf : t.openFile path = some (.file bytes))
    (hd : Image.decode bytes = .ok i) : (loadImage path : FileM _).run t = ((some i, []), t) := by
  rw [loadImage, run_bind, run_readBytes, hf]
  simp only [hd]
  rfl

/-! ## Assembling -/

theorem read_source_target (hsource : isSource path = true) (target : Text) :
    AsmArguments.read ⟨[], []⟩ [path, ofString "-o", target] = .ok ⟨path, target⟩ := by
  have hoption : isTargetOption path = false := by
    refine Bool.eq_false_iff.mpr fun h => ?_
    simp only [isTargetOption, Bool.or_eq_true, beq_iff_eq] at h
    rcases h with rfl | rfl
    · exact absurd hsource (by decide)
    · exact absurd hsource (by decide)
  have hnext : isTargetOption (ofString "-o") = true := by decide
  simp [AsmArguments.read, hoption, hnext]

theorem run_writeBytes (path : Text) (bytes : Bytes) (t : FileTree) :
    (Files.writeBytes path bytes : FileM _).run t =
      (if (t.store path bytes).1 then .ok () else .error (.cannotCreate path), (t.store path bytes).2) := by
  show (if (t.store path bytes).1 then _ else _ : FileM _).run (t.store path bytes).2 = _
  split <;> rfl

/-- An image is not stored, and then directories above it may have been made, or the last thing done was to store it. -/
theorem writeImage_cases (path : Text) (i : Image) (t : FileTree) :
    (((writeImage path i : FileM _).run t).1.1 = false ∧
      FileTree.Grown path t ((writeImage path i : FileM _).run t).2) ∨
    (((writeImage path i : FileM _).run t).1.1 = true ∧
      ∃ t₁ : FileTree, FileTree.Grown path t t₁ ∧
        t₁.store path i.encode = (true, ((writeImage path i : FileM _).run t).2)) := by
  have hgrown := Files.grown_ensureParent path t
  rcases hparent : (Files.ensureParent path : FileM _).run t with ⟨⟨there, log⟩, t₁⟩
  rw [hparent] at hgrown
  simp only [writeImage, run_bind, hparent]
  cases there with
  | false => exact .inl ⟨rfl, hgrown⟩
  | true =>
    rcases hstore : t₁.store path i.encode with ⟨stored, t₂⟩
    simp only [Bool.not_true, if_neg Bool.false_ne_true, run_bind, run_writeBytes, hstore]
    cases stored with
    | false =>
      rw [FileTree.store_eq_false hstore]
      exact .inl ⟨rfl, hgrown⟩
    | true => exact .inr ⟨rfl, t₁, hgrown, hstore⟩

/-- Where an image counts as stored, the last thing done was to store it. -/
theorem store_of_writeImage (h : ((writeImage path i : FileM _).run t).1.1 = true) :
    ∃ t₁ : FileTree, t₁.store path i.encode = (true, ((writeImage path i : FileM _).run t).2) := by
  rcases writeImage_cases path i t with ⟨hfailed, -⟩ | ⟨-, t₁, -, hstore⟩
  · rw [h] at hfailed; cases hfailed
  · exact ⟨t₁, hstore⟩

/-- What `asm` has done where it succeeds: the source has loaded, and its image is stored. -/
theorem asm_of_success {r : Result} (hsource : isSource path = true) (htarget : target ≠ [])
    (hrun : (asm [path, ofString "-o", target] : FileM Result).run t = (r, t')) (hexit : r.exit = 0) :
    ∃ i, (loadCode path : FileM _).run t = ((some i, []), t) ∧ i.entry.toNat ≤ i.code.size ∧
      ∃ t₁ : FileTree, t₁.store target i.encode = (true, t') := by
  have hgiven : path.isEmpty = false := by
    cases path with
    | nil => exact absurd hsource (by decide)
    | cons b rest => rfl
  have hpath : AsmArguments.imagePath ⟨path, target⟩ = target := by simp [AsmArguments.imagePath, htarget]
  have hload : (loadCode path : FileM _) = loadSource path := by rw [loadCode, if_pos hsource]
  obtain ⟨⟨i?, log⟩, hx, hentry⟩ := run_loadSource path t
  simp only [asm, read_source_target hsource, hgiven, hsource, hpath, Bool.not_true, if_neg Bool.false_ne_true, hload,
    run_bind, hx] at hrun
  cases i? with
  | none =>
    cases hrun
    exact absurd hexit (by simp [Result.ofLog])
  | some i =>
    obtain ⟨hle, rfl⟩ := hentry i log rfl
    rw [hload]
    refine ⟨i, hx, hle, ?_⟩
    have hr : (if ((writeImage target i : FileM _).run t).1.1 then (0 : UInt32) else 1) = 0 :=
      (congrArg (fun x => x.1.exit) hrun).trans hexit
    have ht : ((writeImage target i : FileM _).run t).2 = t' := congrArg Prod.snd hrun
    rw [← ht]
    apply store_of_writeImage
    cases hstored : ((writeImage target i : FileM _).run t).1.1 with
    | true => rfl
    | false =>
      rw [hstored] at hr
      cases hr

/-! ## Listing -/

/-- What `disasm` writes of a program that loads. -/
theorem disasm_of_loadCode (h : (loadCode path : FileM _).run t = ((some i, []), t)) :
    (disasm [path] : FileM Result).run t =
      (.ofLog 0 ((Listing.heading (Path.fileName path) :: Listing.lines i.code i.entry.toNat).map Log.info), t) := by
  rw [disasm, run_bind, h]
  rfl

/-! ## Both routes -/

/-- A path as it can stand on the command line, where an argument ends at a zero byte. -/
def IsArgument (path : Text) : Prop := path.untilZero = path

theorem dispatch_asm (hpath : IsArgument path) (htarget : IsArgument target) :
    (dispatch [ofString "asm", path, ofString "-o", target] : FileM Result) = asm [path, ofString "-o", target] := by
  have hasm : (ofString "asm").untilZero = ofString "asm" := by decide
  have hoption : (ofString "-o").untilZero = ofString "-o" := by decide
  simp only [dispatch, List.map_cons, List.map_nil, hasm, hoption, show path.untilZero = path from hpath,
    show target.untilZero = target from htarget]
  rfl

theorem dispatch_disasm (hpath : IsArgument path) :
    (dispatch [ofString "disasm", path] : FileM Result) = disasm [path] := by
  have hdisasm : (ofString "disasm").untilZero = ofString "disasm" := by decide
  simp only [dispatch, List.map_cons, List.map_nil, hdisasm, show path.untilZero = path from hpath]
  rfl

/-- If a source is assembled to a target, on whatever files, the target holds the image of the program that the source
was, and loads as that program. Where the target does not count as a source, it is listed as the source was, under
another name. -/
theorem routes_agree {r : Result} (hpath : IsArgument path) (hsource : isSource path = true)
    (htarget : IsArgument target) (hnamed : target ≠ [])
    (hrun : (dispatch [ofString "asm", path, ofString "-o", target] : FileM Result).run t = (r, t'))
    (hexit : r.exit = 0)
    (hsize : ∀ i ∈ ((loadCode path : FileM _).run t).1.1, i.code.size < UInt64.size) :
    ∃ i, (loadCode path : FileM _).run t = ((some i, []), t) ∧
      (loadImage target : FileM _).run t' = ((some i, []), t') ∧ t'.openFile target = some (.file i.encode) ∧
      (isSource target = false →
        let listed (name : Text) : Result :=
          .ofLog 0 ((Listing.heading name :: Listing.lines i.code i.entry.toNat).map Log.info)
        (dispatch [ofString "disasm", path] : FileM Result).run t = (listed (Path.fileName path), t) ∧
        (dispatch [ofString "disasm", target] : FileM Result).run t' = (listed (Path.fileName target), t')) := by
  rw [dispatch_asm hpath htarget] at hrun
  obtain ⟨i, hload, hentry, t₁, hstore⟩ := asm_of_success hsource hnamed hrun hexit
  have hfile : t'.openFile target = some (.file i.encode) := FileTree.openFile_of_store hstore
  have hcode : i.code.size < UInt64.size := hsize i (by rw [hload]; rfl)
  have hdecode : Image.decode i.encode = .ok i := by
    have htail := Image.decode_encode_append hcode hentry #[]
    rwa [Array.append_empty] at htail
  have himage : (loadImage target : FileM _).run t' = ((some i, []), t') := run_loadImage_of_file hfile hdecode
  refine ⟨i, hload, himage, hfile, fun hother => ?_⟩
  intro listed
  have hcode' : (loadCode target : FileM _).run t' = ((some i, []), t') := by
    rw [loadCode, if_neg (Bool.eq_false_iff.mp hother)]
    exact himage
  rw [dispatch_disasm hpath, dispatch_disasm htarget]
  exact ⟨disasm_of_loadCode hload, disasm_of_loadCode hcode'⟩

/-- A loop, assembled into a directory that is made for it. -/
theorem routes_agree_newDirectory :
    let path := ofString "loop.vna"
    let target := ofString "out/loop.vbc"
    let t := FileTree.empty.add path (.file (ofString "loop: jump loop").toArray)
    let i : Image := ⟨0, #[0x08, 0, 0, 0, 0]⟩
    ∃ r t', (dispatch [ofString "asm", path, ofString "-o", target] : FileM Result).run t = (r, t') ∧
      IsArgument path ∧ isSource path = true ∧ IsArgument target ∧ target ≠ [] ∧ r.exit = 0 ∧
      ((loadCode path : FileM _).run t).1.1 = some i ∧ t'.openFile target = some (.file i.encode) ∧
      (loadImage target : FileM _).run t' = ((some i, []), t') := by
  intro path target t i
  have hexit : ((dispatch [ofString "asm", path, ofString "-o", target] : FileM Result).run t).1.exit = 0 := by
    decide +kernel
  have hload : ((loadCode path : FileM _).run t).1.1 = some i := by decide +kernel
  rcases hrun : (dispatch [ofString "asm", path, ofString "-o", target] : FileM Result).run t with ⟨r, t'⟩
  rw [hrun] at hexit
  have hpath : IsArgument path := rfl
  have htarget : IsArgument target := rfl
  have hsource : isSource path = true := by decide
  have hsize : ∀ i' ∈ ((loadCode path : FileM _).run t).1.1, i'.code.size < UInt64.size := by
    rw [hload]
    intro i' hi'
    cases hi'
    decide
  obtain ⟨i', hi', himage, hfile, -⟩ := routes_agree hpath hsource htarget (by decide) hrun hexit hsize
  rw [hi'] at hload
  cases hload
  exact ⟨r, t', rfl, hpath, hsource, htarget, by decide, hexit, by rw [hi'], hfile, himage⟩

end Command

end StackVM
