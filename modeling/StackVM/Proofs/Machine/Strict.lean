/-
  StackVM.Proofs.Machine.Strict — the machine on memory that forgives nothing.

  The machine's own definitions are total: a byte past the end of the code counts as zero, an update outside the object
  table does nothing, a value is taken apart by its kind, and the heap refuses in whatever way it likes. Here the same
  steps are taken with every access made as it stands. A byte, an input, a cell of the stack, an entry, a class or a
  slot has to be there; a payload has to be read by the arm that was written; an entry has to be free before anybody
  waits for it; a refusal is thrown, and goes all the way up unless somebody on the way catches it; and the places that
  are thought to be out of reach are marked. Whatever goes wrong is an `Escape`, which nothing below a step handles.

  What guards an access is what stands in front of it in the same definition, and nothing else: a comparison with a
  size, a look at a kind, a decoded opcode.

  - `Strict.dispatch`, `Strict.step`, `Strict.run`, `Strict.execute`: the instructions, steps and runs.
  - `Strict.fetch_eq`, `Strict.line_eq`: what is read of the code lies in it.
-/

import StackVM.Proofs.Machine.Step

namespace StackVM

/-! ## What may go wrong -/

/-- A place in a step that is thought to be out of reach. -/
inductive Fallback
  /-- A byte has been decoded that is no opcode. -/
  | unknownOpcode (byte : UInt8)
  /-- An opcode that is no operator has come to an operator's place. -/
  | notAnOperator (op : Opcode)
  /-- The heap has refused the use of a handle, but not for the handle. -/
  | refusal (e : HeapError)
  /-- An allocation has failed for some other reason than its class. -/
  | allocation (s : HeapError.Status)
  deriving DecidableEq, Repr

inductive Escape
  /-- A refusal of the heap that nobody has caught. -/
  | uncaught (e : HeapError)
  | noByte (offset : Nat)
  | noInput (side : Side) (index : Nat)
  | noCell (index : Nat)
  | noEntry (index : UInt32)
  | noClass (n : Nat)
  | noSlot (index : UInt32) (slot : Nat)
  /-- A value has been read by the arm that was not written. -/
  | wrongArm (v : Value)
  /-- A wait for somebody who is inside the object. -/
  | waits (index : UInt32)
  | fallback (f : Fallback)
  deriving DecidableEq, Repr

/-- Why an action stops short: with a fault, as it should, or with an escape. -/
inductive Stop
  | fault (c : Cause)
  | escape (e : Escape)
  deriving DecidableEq, Repr

abbrev Strict (σ α : Type) := EStateM Stop σ α

namespace Strict

variable {σ α : Type}

def fault (c : Cause) : Strict σ α := throw (.fault c)

def escape (e : Escape) : Strict σ α := throw (.escape e)

/-! ## Values -/

/-- Reads the word that a value holds if it is a raw one. -/
def asRaw : Value → Strict σ UInt64
  | .raw bits => pure bits
  | v => escape (.wrongArm v)

/-- Reads the handle that a value holds if it is a reference. -/
def asHandle : Value → Strict σ Handle
  | .ref x => pure x
  | v => escape (.wrongArm v)

/-- Writes a value out. -/
def spell (v : Value) : Strict σ String :=
  if v.kind = .raw then do
    let bits ← asRaw v
    return s!"Raw({bits})"
  else do
    let x ← asHandle v
    return s!"Ref({x.text})"

/-! ## The object table -/

def entryAt (i : UInt32) : Strict Heap Entry := fun h =>
  match h.entries[i.toNat]? with
  | some e => .ok e h
  | none => .error (.escape (.noEntry i)) h

def changeEntry (i : UInt32) (f : Entry → Entry) : Strict Heap Unit := fun h =>
  if i.toNat < h.entries.size then .ok () (h.updateEntry i f) else .error (.escape (.noEntry i)) h

def classAt (n : Nat) : Strict Heap SizeClass := fun h =>
  match h.classes[n]? with
  | some k => .ok k h
  | none => .error (.escape (.noClass n)) h

def changeClass (n : Nat) (f : SizeClass → SizeClass) : Strict Heap Unit := fun h =>
  if n < h.classes.size then .ok () (h.updateClass n f) else .error (.escape (.noClass n)) h

/-- Waits until nobody is inside the object at an index. -/
def await (i : UInt32) : Strict Heap Unit := fun h =>
  if h.isHeld i then .error (.escape (.waits i)) h else .ok () h

/-- The entry that a handle names, once nobody is inside; throws unless the handle is valid. -/
def lockValid (x : Handle) : Strict Heap Entry := fun h =>
  if h.entries.size ≤ x.index.toNat then .error (.escape (.uncaught (.indexOutOfRange x.index))) h
  else (do
    await x.index
    let e ← entryAt x.index
    if e.answers x then return e else escape (.uncaught (.stale x))) h

/-! ## Objects -/

/-- Takes a guard, works under it and drops it in the end, even if the work stops short. -/
def inside (x : Handle) (work : Guard → Strict Heap α) : Strict Heap α := fun h =>
  match lockValid x h with
  | .error s h => .error s h
  | .ok _ h =>
    match work ⟨x⟩ { h with held := x.index :: h.held } with
    | .ok a h => .ok a { h with held := h.held.erase x.index }
    | .error s h => .error s { h with held := h.held.erase x.index }

def sizeUnder (g : Guard) : Strict Heap Nat := do
  let e ← entryAt g.handle.index
  return e.slots.size

def slotUnder (g : Guard) (slot : Nat) : Strict Heap Value := do
  let e ← entryAt g.handle.index
  match e.slots[slot]? with
  | some v => return v
  | none => escape (.noSlot g.handle.index slot)

def putUnder (g : Guard) (slot : Nat) (v : Value) : Strict Heap Unit := do
  let e ← entryAt g.handle.index
  if slot < e.slots.size then
    changeEntry g.handle.index fun e => { e with slots := e.slots.setIfInBounds slot v }
  else escape (.noSlot g.handle.index slot)

/-- Reads a slot after a look at the object's size. -/
def readSlot (x : Handle) (slot : Nat) : Strict Heap Value :=
  inside x fun g => do
    let n ← sizeUnder g
    if n ≤ slot then fault (.slotOutOfRange slot n) else slotUnder g slot

/-- Writes a slot after a look at the object's size. -/
def writeSlot (x : Handle) (slot : Nat) (v : Value) : Strict Heap Unit :=
  inside x fun g => do
    let n ← sizeUnder g
    if n ≤ slot then fault (.slotOutOfRange slot n) else putUnder g slot v

def sizeOf (x : Handle) : Strict Heap Nat := inside x sizeUnder

def retain (x : Handle) : Strict Heap Unit := do
  let _ ← lockValid x
  changeEntry x.index fun e => { e with refCount := e.refCount + 1 }

def release (x : Handle) : Strict Heap Bool := do
  let e ← lockValid x
  let count := e.refCount - 1
  if 0 < count then
    changeEntry x.index fun e => { e with refCount := count }
    return false
  else
    changeEntry x.index Entry.kill
    changeClass e.sizeClass.toNat (·.recycle x.index)
    return true

/-- An allocation throws nothing and answers with a status instead. -/
def tryAllocate (n : Nat) : Strict Heap (Except HeapError.Status Handle) := fun h =>
  if h.classes.size ≤ n then .ok (.error .invalidSizeClass) h
  else (do
    let k ← classAt n
    match k.free with
    | [] => return .error .outOfMemory
    | i :: _ =>
      changeClass n SizeClass.take
      await i
      let e ← entryAt i
      changeEntry i Entry.revive
      return .ok ⟨i, e.generation⟩ : Strict Heap (Except HeapError.Status Handle)) h

/-! ## The stack -/

def cellAt (i : Nat) : Strict Frame Value := fun f =>
  match f.stack.cells[i]? with
  | some v => .ok v f
  | none => .error (.escape (.noCell i)) f

def setCell (i : Nat) (v : Value) : Strict Frame Unit := fun f =>
  if h : i < f.stack.cells.size then
    .ok () { f with stack := ⟨f.stack.cells.set i v, f.stack.top, by simpa using f.stack.top_le⟩ }
  else .error (.escape (.noCell i)) f

/-- Moves the top, which stays within the cells. -/
def setTop (n : Nat) : Strict Frame Unit := fun f =>
  if h : n ≤ f.stack.cells.size then .ok () { f with stack := ⟨f.stack.cells, n, h⟩ }
  else .error (.escape (.noCell n)) f

def push (v : Value) : Strict Frame Unit := do
  let f ← get
  if f.stack.capacity ≤ f.stack.top then fault (.stackOverflow f.stack.capacity)
  else
    setCell f.stack.top v
    setTop (f.stack.top + 1)

def pop : Strict Frame Value := do
  let f ← get
  if f.stack.top = 0 then fault .stackUnderflow
  else
    let v ← cellAt (f.stack.top - 1)
    setTop (f.stack.top - 1)
    return v

/-- The topmost value, left where it is. -/
def top (otherwise : Cause) : Strict Frame Value := do
  let f ← get
  if f.stack.top ≤ 0 then fault otherwise else cellAt (f.stack.top - 1)

def swapTop : Strict Frame Unit := do
  let f ← get
  if f.stack.top < 2 then fault (.needsTwo .swap)
  else
    let a ← cellAt (f.stack.top - 1)
    let b ← cellAt (f.stack.top - 2)
    setCell (f.stack.top - 1) b
    setCell (f.stack.top - 2) a

/-- The word on top; the message about any other value writes the value out. -/
def popRaw : Strict Frame UInt64 := do
  let v ← pop
  if v.kind = .raw then asRaw v
  else
    let _ ← spell v
    fault (.expectedRaw v)

/-- The handle on top; the message about any other value writes the value out. -/
def popReference : Strict Frame Handle := do
  let v ← pop
  if v.kind = .reference then asHandle v
  else
    let _ ← spell v
    fault (.expectedReference v)

def inputAt (p : Program) (side : Side) (i : Nat) : Strict Frame Value :=
  match (p.inputs side)[i]? with
  | some v => pure v
  | none => escape (.noInput side i)

/-! ## Instructions -/

/-- What comes of a refusal that has been caught. The heap refuses a handle because of the handle; what is left is
thought to be out of reach. -/
def caught (x : Handle) (e : HeapError) : Stop :=
  if e.status = .invalidHandle then .fault (.invalidReference x) else .escape (.fallback (.refusal e))

/-- Works on the heap and catches what is thrown. -/
def catching (x : Handle) (work : Strict Heap α) : Strict Frame α := fun f =>
  match work f.heap with
  | .ok a h => .ok a { f with heap := h }
  | .error (.escape (.uncaught e)) h => .error (caught x e) { f with heap := h }
  | .error s h => .error s { f with heap := h }

/-- Works on the heap where nothing is caught. -/
def uncaught (work : Strict Heap α) : Strict Frame α := fun f =>
  match work f.heap with
  | .ok a h => .ok a { f with heap := h }
  | .error s h => .error s { f with heap := h }

def twoOperands (op : Opcode) : Strict Frame Unit := do
  let f ← get
  if f.stack.top < 2 then fault (.needsTwo op) else return ()

/-- Takes two words and puts the integer operator's result in their place. -/
def integer (op : Opcode) : Strict Frame Unit := do
  twoOperands op
  let b ← popRaw
  let a ← popRaw
  match op with
  | .int o =>
    match o.apply a b with
    | some v => push (.raw v)
    | none => fault .divisionByZero
  | _ => escape (.fallback (.notAnOperator op))

/-- Takes two words and puts the result of the operator on floating-point numbers in their place. -/
def float (op : Opcode) : Strict Frame Unit := do
  twoOperands op
  let b ← popRaw
  let a ← popRaw
  match op with
  | .float o =>
    match o.apply a b with
    | some v => push (.raw v)
    | none => fault .divisionByZero
  | _ => escape (.fallback (.notAnOperator op))

def jump (p : Program) (target : UInt64) : Strict Frame Flow :=
  if p.code.size < target.toNat then fault (.jumpPastEnd target.toNat p.code.size)
  else return .jump target.toNat

def pushInput (p : Program) (side : Side) (i : Nat) : Strict Frame Unit :=
  if (p.inputs side).size ≤ i then fault (.inputOutOfRange side i (p.inputs side).size)
  else do
    let v ← inputAt p side i
    push v

/-- Makes sure of room on the stack before it asks for an object. -/
def alloc (n : Nat) : Strict Frame Unit := do
  let f ← get
  if f.stack.top = f.stack.capacity then fault (.stackOverflow f.stack.capacity)
  else
    match ← uncaught (tryAllocate n) with
    | .ok x => push (.ref x)
    | .error .invalidSizeClass => fault (.noSuchClass n f.heap.classCount)
    | .error .outOfMemory => fault (.exhausted n)
    | .error s => escape (.fallback (.allocation s))

def prop (slot : Nat) : Strict Frame Unit := do
  let x ← popReference
  let v ← catching x (readSlot x slot)
  push v

def setProp (slot : Nat) : Strict Frame Unit := do
  let v ← pop
  let x ← popReference
  catching x (writeSlot x slot v)

def objectSize : Strict Frame Unit := do
  let x ← popReference
  let n ← catching x (sizeOf x)
  push (.ofUnsigned (UInt64.ofNat n))

def andNext (act : Strict Frame Unit) : Strict Frame Flow := do
  act
  return .next

/-- Carries out what has been decoded, by its byte. -/
def dispatch (p : Program) (b : UInt8) (operand : UInt64) : Strict Frame Flow :=
  match Opcode.ofByte? b with
  | none => escape (.fallback (.unknownOpcode b))
  | some op =>
    match op with
    | .unreachable => fault .unreachable
    | .noop => return .next
    | .halt => return .halt
    | .jump => jump p operand
    | .jumpIfZero | .jumpIfNotZero => do
      let condition ← popRaw
      if (if op = .jumpIfZero then condition == 0 else condition != 0) then jump p operand else return .next
    | .pushInput side => andNext (pushInput p side operand.toNat)
    | .pushR => andNext do
      let f ← get
      push f.r
    | .pop => andNext do
      let _ ← pop
    | .popIntoR => andNext do
      let v ← pop
      modify fun f => { f with r := v }
    | .dup => andNext do
      let v ← top .stackUnderflow
      push v
    | .swap => andNext swapTop
    | .pushWord => andNext (push (.raw operand))
    | .clear => andNext (setTop 0)
    | .int _ => andNext (integer op)
    | .float _ => andNext (float op)
    | .alloc => andNext (alloc operand.toNat)
    | .prop => andNext (prop operand.toNat)
    | .setProp => andNext (setProp operand.toNat)
    | .sizeOf => andNext objectSize
    | .retain => andNext do
      let x ← popReference
      catching x (retain x)
    | .release => andNext do
      let x ← popReference
      let _ ← catching x (release x)
    | .print => do
      let v ← top .nothingToPrint
      let _ ← spell v
      return .print v

/-! ## The code -/

def byteAt (code : Bytes) (offset : Nat) : Except Escape UInt8 :=
  match code[offset]? with
  | some b => .ok b
  | none => .error (.noByte offset)

/-- The bytes from an offset on as a word, lowest byte first. -/
def operandAt (code : Bytes) (offset : Nat) : Nat → Except Escape UInt64
  | 0 => .ok 0
  | width + 1 => do
    let b ← byteAt code offset
    let rest ← operandAt code (offset + 1) width
    return b.toUInt64 ||| (rest <<< 8)

/-- What comes of a look at the code. -/
inductive Fetched
  | instruction (byte : UInt8) (operand : UInt64) (length : Nat)
  | endOfCode
  | illegal
  | truncated
  deriving DecidableEq, Repr

def fetch (code : Bytes) (offset : Nat) : Except Escape Fetched :=
  if code.size ≤ offset then return .endOfCode
  else do
    let b ← byteAt code offset
    match Opcode.ofByte? b with
    | none => return .illegal
    | some op =>
      if code.size - offset - 1 < op.operandWidth then return .truncated
      else
        let operand ← operandAt code (offset + 1) op.operandWidth
        return .instruction op.byte operand (1 + op.operandWidth)

/-- The opcode of a byte that is said to be one. -/
def opcodeOf (b : UInt8) : Except Escape Opcode :=
  match Opcode.ofByte? b with
  | some op => .ok op
  | none => .error (.fallback (.unknownOpcode b))

/-- A line of a listing. -/
def line (code : Bytes) (offset : Nat) : Except Escape Text := do
  match ← fetch code offset with
  | .instruction b operand _ =>
    let op ← opcodeOf b
    return Listing.offsetColumn offset ++ Listing.instruction offset ⟨op, operand⟩
  | .endOfCode => return Listing.offsetColumn offset ++ Text.ofString "<<end of code>>"
  | .illegal =>
    let b ← byteAt code offset
    return Listing.offsetColumn offset ++ (Text.ofString "<<illegal 0x" ++
      Text.padStart 2 (Text.byte '0') (Text.hexadecimal b.toNat) ++ Text.ofString ">>")
  | .truncated =>
    let b ← byteAt code offset
    let op ← opcodeOf b
    return Listing.offsetColumn offset ++ (Listing.nameColumn op ++ Text.ofString "<truncated>")

/-! ## Steps and runs -/

def traceLines (m : Machine) : Except Escape (List Log.Line) :=
  if m.settings.trace then do
    let t ← line m.program.code m.pc
    return [Log.info (t ++ Text.ofString s!"    depth={m.stack.size}")]
  else return []

/-- Counts an instruction and carries it out. A fault ends here, an escape does not. -/
def perform (m : Machine) (b : UInt8) (operand : UInt64) (length : Nat) (h : Heap) :
    Except Escape (Machine × Heap × List Log.Line) := do
  let traced ← traceLines m
  match dispatch m.program b operand (m.frame h) with
  | .ok flow f =>
    let (m', printed) := (m.counting f).follow length flow
    return (m', f.heap, traced ++ printed)
  | .error (.fault c) f => return ((m.counting f).fail c, f.heap, traced ++ (m.counting f).faultLines c)
  | .error (.escape e) _ => throw e

def step (m : Machine) (h : Heap) : Except Escape (Machine × Heap × List Log.Line) :=
  match m.status with
  | .running =>
    if m.stopRequested then return m.failing .cancelled h
    else if m.pc = m.program.code.size then return (m.halt, h, [])
    else if m.outOfBudget then return m.failing (.budgetExhausted m.settings.stepBudget) h
    else do
      match ← fetch m.program.code m.pc with
      | .instruction b operand length => perform m b operand length h
      | .endOfCode => return (m.halt, h, [])
      | .illegal =>
        let b ← byteAt m.program.code m.pc
        return m.failing (.illegalOpcode b) h
      | .truncated =>
        let b ← byteAt m.program.code m.pc
        let op ← opcodeOf b
        return m.failing (.missingOperand op) h
  | _ => return (m, h, [])

def run : Nat → Machine → Heap → Array Log.Line → Except Escape (Machine × Heap × Array Log.Line)
  | 0, m, h, log => return (m, h, log)
  | n + 1, m, h, log =>
    if m.isRunning then do
      let (m, h, lines) ← step m h
      run n m h (log ++ lines)
    else return (m, h, log)

def execute (m : Machine) (h : Heap) : Except Escape (Machine × Heap × Array Log.Line) := run m.stepLimit m h #[]

/-! ## What is read of the code lies in it -/

variable {code : Bytes} {offset : Nat}

theorem byteAt_of_lt (hlt : offset < code.size) : byteAt code offset = .ok code[offset] := by
  simp [byteAt, hlt]

theorem operandAt_eq {width : Nat} (hend : offset + width ≤ code.size) :
    operandAt code offset width = .ok (LittleEndian.read code offset width) := by
  induction width generalizing offset with
  | zero => rfl
  | succ width ih =>
    have hlt : offset < code.size := by omega
    have hrest : operandAt code (offset + 1) width = _ := ih (by omega)
    simp [operandAt, byteAt_of_lt hlt, hrest, LittleEndian.read, Array.getD_eq_getD_getElem?, hlt, bind, Except.bind,
      pure, Except.pure]

/-- What a look at the code comes to, told by the decoder. -/
def fetched : Except Instruction.DecodeError Instruction → Fetched
  | .ok i => .instruction i.op.byte i.operand i.length
  | .error .endOfCode => .endOfCode
  | .error (.illegalOpcode _) => .illegal
  | .error (.truncated _) => .truncated

theorem fetch_eq (code : Bytes) (offset : Nat) :
    fetch code offset = .ok (fetched (Instruction.decode code offset)) := by
  unfold fetch Instruction.decode
  by_cases hend : code.size ≤ offset
  · rw [if_pos hend, dif_neg (Nat.not_lt.mpr hend)]
    rfl
  · have hlt : offset < code.size := Nat.lt_of_not_le hend
    rw [if_neg hend, dif_pos hlt, byteAt_of_lt hlt]
    simp only [bind, Except.bind, pure, Except.pure]
    cases hop : Opcode.ofByte? code[offset] with
    | none => rfl
    | some op =>
      simp only
      by_cases hshort : code.size - offset - 1 < op.operandWidth
      · rw [if_pos hshort, if_pos hshort]
        rfl
      · rw [if_neg hshort, if_neg hshort, operandAt_eq (by omega)]
        rfl

/-- The byte that the decoder has found to be no opcode can be read again. -/
theorem byteAt_of_illegal {b : UInt8} (hd : Instruction.decode code offset = .error (.illegalOpcode b)) :
    byteAt code offset = .ok b := by
  unfold Instruction.decode at hd
  split at hd
  next hlt =>
    split at hd
    next => cases hd; exact byteAt_of_lt hlt
    next => split at hd <;> cases hd
  next => cases hd

/-- And so can the opcode that has lost its operand. -/
theorem byteAt_of_truncated {op : Opcode} (hd : Instruction.decode code offset = .error (.truncated op)) :
    ∃ b, byteAt code offset = .ok b ∧ opcodeOf b = .ok op := by
  unfold Instruction.decode at hd
  split at hd
  next hlt =>
    split at hd
    next => cases hd
    next op' hop =>
      split at hd
      next =>
        cases hd
        exact ⟨_, byteAt_of_lt hlt, by simp [opcodeOf, hop]⟩
      next => cases hd
  next => cases hd

theorem opcodeOf_byte (op : Opcode) : opcodeOf op.byte = .ok op := by
  simp [opcodeOf, Opcode.ofByte?_byte]

theorem line_eq (code : Bytes) (offset : Nat) : line code offset = .ok (Listing.line code offset) := by
  unfold line Listing.line
  rw [fetch_eq]
  cases hd : Instruction.decode code offset with
  | ok i => simp only [fetched, bind, Except.bind, opcodeOf_byte]; rfl
  | error e =>
    cases e with
    | endOfCode => rfl
    | illegalOpcode b => simp only [fetched, bind, Except.bind, byteAt_of_illegal hd]; rfl
    | truncated op =>
      obtain ⟨b, hb, hop⟩ := byteAt_of_truncated hd
      simp only [fetched, bind, Except.bind, hb, hop]; rfl

theorem traceLines_eq (m : Machine) : traceLines m = .ok m.traceLines := by
  unfold traceLines Machine.traceLines Machine.traceLine
  split
  next => simp only [line_eq, bind, Except.bind]; rfl
  next => rfl

end Strict

end StackVM
