import RapidTrader.Lib.Loop
import RapidTrader.Lib.SortedMap
import RapidTrader.Lib.Probing

namespace RapidTrader
open Lib Function
set_option autoImplicit true

/-- How a function of a table fails: it throws, or it reads or writes what it may not. -/
inductive TableError where
  | overflowError | undefined
  deriving DecidableEq

abbrev TableExec (α : Type) := Except TableError α

/-- A `robin_hood` table and what is in its memory. `mKeyVals` is `none` where there is no node, and
the byte of `mInfo` is 0 there. -/
structure Table (κ ν : Type) where
  mHashMultiplier : UInt64
  mKeyVals : Nat → Option (κ × ν)
  mInfo : Nat → UInt8
  mNumElements : Nat
  mMask : Nat
  mMaxNumElementsAllowed : Nat
  mInfoInc : Nat
  mInfoHashShift : Nat

def initialNumElements : Nat := 8
def initialInfoInc : Nat := 32
def initialInfoHashShift : Nat := 0
def maxLoadFactor100 : Nat := 80

def calcMaxNumElementsAllowed (maxElements : Nat) : Nat :=
  if maxElements ≤ 18446744073709551615 / 100 then maxElements * maxLoadFactor100 / 100
  else maxElements / 100 * maxLoadFactor100

def calcNumElementsWithBuffer (numElements : Nat) : Nat :=
  numElements + min (calcMaxNumElementsAllowed numElements) 255

def calcNumBytesInfo (numElements : Nat) : Nat := numElements + 8

/-- `hash_int`, the hash function of the integer keys. -/
def hashInt (x : UInt64) : UInt64 :=
  let x := x ^^^ (x >>> 33)
  let x := x * 0xff51afd7ed558ccd
  x ^^^ (x >>> 33)

namespace Table
variable {κ ν : Type}

/-- A table before its first insertion. `mInfo` points to `mMask`, whose bytes are 0. -/
def new : Table κ ν where
  mHashMultiplier := 0xc4ceb9fe1a85ec53
  mKeyVals _ := none
  mInfo _ := 0
  mNumElements := 0
  mMask := 0
  mMaxNumElementsAllowed := 0
  mInfoInc := initialInfoInc
  mInfoHashShift := initialInfoHashShift

def numElementsWithBuffer (t : Table κ ν) : Nat := calcNumElementsWithBuffer (t.mMask + 1)

/-- The number of bytes that may be read at `mInfo`. -/
def numBytesInfo (t : Table κ ν) : Nat :=
  if t.mMask = 0 then 8 else calcNumBytesInfo t.numElementsWithBuffer

/-- The slot that `end()` points to, which is the distance from `mKeyVals` to `mInfo`. -/
def endIdx (t : Table κ ν) : Nat := if t.mMask = 0 then 0 else t.numElementsWithBuffer

def infoAt (t : Table κ ν) (idx : Nat) : TableExec Nat :=
  if idx < t.numBytesInfo then .ok (t.mInfo idx).toNat else .error .undefined

def nodeAt (t : Table κ ν) (idx : Nat) : TableExec (κ × ν) :=
  match t.mKeyVals idx with
  | some node => .ok node
  | none => .error .undefined

/-- A number that is written to a byte is cut to it. -/
def setInfo (t : Table κ ν) (idx info : Nat) : TableExec (Table κ ν) :=
  if t.mMask ≠ 0 ∧ idx < t.numBytesInfo then
    .ok { t with mInfo := update t.mInfo idx (UInt8.ofNat info) }
  else .error .undefined

def setNode (t : Table κ ν) (idx : Nat) (node : Option (κ × ν)) : TableExec (Table κ ν) :=
  if t.mMask ≠ 0 ∧ idx < t.numElementsWithBuffer then
    .ok { t with mKeyVals := update t.mKeyVals idx node }
  else .error .undefined

/-- The home slot of a key, after the number that its entry has there. -/
def keyToIdx (hash : κ → UInt64) (t : Table κ ν) (key : κ) : Nat × Nat :=
  let h := hash key * t.mHashMultiplier
  let h := h ^^^ (h >>> 33)
  (t.mInfoInc + (h &&& 31).toNat >>> t.mInfoHashShift, (h >>> 5).toNat &&& t.mMask)

/-- The next slot, after the number that the entry has there. -/
def next (t : Table κ ν) (p : Nat × Nat) : Nat × Nat := (p.1 + t.mInfoInc, p.2 + 1)

/-- No loop over the bytes of `mInfo` takes more turns than there are bytes and one. -/
def maxTurns (t : Table κ ν) : Nat := t.numBytesInfo + 1

/-- The loops that call `next` while `mInfo[idx]` is one that is to be passed over. -/
def skipWhile (t : Table κ ν) (pass : Nat → Nat → Bool) : Nat → Nat × Nat → TableExec (Nat × Nat)
  | 0, _ => .error .undefined
  | turns + 1, p => do
    if pass p.1 (← t.infoAt p.2) then t.skipWhile pass turns (t.next p) else return p

def nextWhileLess (t : Table κ ν) (p : Nat × Nat) : TableExec (Nat × Nat) :=
  t.skipWhile (fun info byte => info < byte) t.maxTurns p

section Nodes
variable [DecidableEq κ]

/-- Whether the slot has the number that the entry of the key has there, and its key. -/
def isAt (t : Table κ ν) (key : κ) (p : Nat × Nat) : TableExec Bool := do
  if p.1 = (← t.infoAt p.2) then return (← t.nodeAt p.2).1 = key else return false

def findLoop (t : Table κ ν) (key : κ) : Nat → Nat × Nat → TableExec (Option Nat)
  | 0, _ => .error .undefined
  | turns + 1, p => do
    if ← t.isAt key p then return some p.2
    let p := t.next p
    if ← t.isAt key p then return some p.2
    let p := t.next p
    if p.1 ≤ (← t.infoAt p.2) then t.findLoop key turns p else return none

def findIdx (hash : κ → UInt64) (t : Table κ ν) (key : κ) : TableExec Nat := do
  return (← t.findLoop key t.maxTurns (t.keyToIdx hash key)).getD t.endIdx

/-- The loop of `insertKeyPrepareEmptySpot` over the slots that potentially match. -/
def matchLoop (t : Table κ ν) (key : κ) : Nat → Nat × Nat → TableExec (Bool × Nat × Nat)
  | 0, _ => .error .undefined
  | turns + 1, p => do
    if p.1 = (← t.infoAt p.2) then
      if (← t.nodeAt p.2).1 = key then return (true, p) else t.matchLoop key turns (t.next p)
    else return (false, p)

end Nodes

/-! ### Moving entries -/

/-- The first loop of `shiftUp`, down from slot `insertionIdx + n`. -/
def shiftNodesUp (insertionIdx : Nat) : Nat → Table κ ν → TableExec (Table κ ν)
  | 0, t => return t
  | n + 1, t => do
    let node ← t.nodeAt (insertionIdx + n)
    let t ← t.setNode (insertionIdx + n + 1) (some node)
    shiftNodesUp insertionIdx n t

/-- The second loop of `shiftUp`. A number that leaves no room for one more `mInfoInc` in its byte
makes the next insertion increase the size. -/
def shiftInfoUp (insertionIdx : Nat) : Nat → Table κ ν → TableExec (Table κ ν)
  | 0, t => return t
  | n + 1, t => do
    let byte ← t.infoAt (insertionIdx + n)
    let t ← t.setInfo (insertionIdx + n + 1) (byte + t.mInfoInc)
    let byte ← t.infoAt (insertionIdx + n + 1)
    shiftInfoUp insertionIdx n
      (if byte + t.mInfoInc > 0xFF then { t with mMaxNumElementsAllowed := 0 } else t)

def shiftUp (t : Table κ ν) (startIdx insertionIdx : Nat) : TableExec (Table κ ν) := do
  let t ← t.shiftNodesUp insertionIdx (startIdx - insertionIdx)
  t.shiftInfoUp insertionIdx (startIdx - insertionIdx)

/-- The loop of `shiftDown`, until a slot is either empty or has zero offset. -/
def shiftDownLoop : Nat → Table κ ν → Nat → TableExec (Table κ ν × Nat)
  | 0, _, _ => .error .undefined
  | turns + 1, t, idx => do
    let byte ← t.infoAt (idx + 1)
    if byte ≥ 2 * t.mInfoInc then
      let t ← t.setInfo idx (byte - t.mInfoInc)
      let t ← t.setNode idx (some (← t.nodeAt (idx + 1)))
      shiftDownLoop turns t (idx + 1)
    else return (t, idx)

def shiftDown (t : Table κ ν) (idx : Nat) : TableExec (Table κ ν) := do
  let _ ← t.nodeAt idx
  let (t, idx) ← shiftDownLoop t.maxTurns t idx
  let t ← t.setInfo idx 0
  t.setNode idx none

/-- What `insertKeyPrepareEmptySpot` and `insert_move` do alike: they find an empty spot and shift
up the entries before it. The result tells whether there was nothing to shift. -/
def prepareSpot (t : Table κ ν) (info idx insertionInfo : Nat) :
    TableExec (Bool × Table κ ν) := do
  let t := if insertionInfo + t.mInfoInc > 0xFF then { t with mMaxNumElementsAllowed := 0 } else t
  let p ← t.skipWhile (fun _ byte => byte ≠ 0) t.maxTurns (info, idx)
  let t ← if p.2 ≠ idx then t.shiftUp p.2 idx else pure t
  let t ← t.setInfo idx insertionInfo
  return (p.2 = idx, { t with mNumElements := t.mNumElements + 1 })

/-! ### Growing -/

def initData (t : Table κ ν) (maxElements : Nat) : Table κ ν where
  mHashMultiplier := t.mHashMultiplier
  mKeyVals _ := none
  mInfo := update (fun _ => 0) (calcNumElementsWithBuffer maxElements) 1
  mNumElements := 0
  mMask := maxElements - 1
  mMaxNumElementsAllowed := calcMaxNumElementsAllowed maxElements
  mInfoInc := initialInfoInc
  mInfoHashShift := initialInfoHashShift

/-- The number whose bytes in memory, the lowest first, are those of a list. -/
def wordOf : List UInt8 → Nat
  | [] => 0
  | byte :: bytes => byte.toNat + 256 * wordOf bytes

def loadWord (mInfo : Nat → UInt8) (idx : Nat) : Nat :=
  wordOf ((List.range 8).map fun j => mInfo (idx + j))

def storeWord (mInfo : Nat → UInt8) (idx word : Nat) (j : Nat) : UInt8 :=
  if idx ≤ j ∧ j < idx + 8 then UInt8.ofNat (word >>> (8 * (j - idx))) else mInfo j

/-- One turn of the loop of `try_increase_info`, which works on eight bytes at once. -/
def halveWord (mInfo : Nat → UInt8) (idx : Nat) : Nat → UInt8 :=
  storeWord mInfo idx (loadWord mInfo idx >>> 1 &&& 0x7f7f7f7f7f7f7f7f)

def tryIncreaseInfo (t : Table κ ν) : TableExec (Option (Table κ ν)) := do
  if t.mInfoInc ≤ 2 then return none
  let n := t.numElementsWithBuffer
  let mInfo ← (List.range ((n + 7) / 8)).foldlM (fun mInfo i =>
    if 8 * i + 8 ≤ t.numBytesInfo then .ok (halveWord mInfo (8 * i)) else .error .undefined) t.mInfo
  let t ← ({ t with
    mInfoInc := (t.mInfoInc >>> 1) % 256
    mInfoHashShift := t.mInfoHashShift + 1
    mInfo := mInfo } : Table κ ν).setInfo n 1
  return some { t with mMaxNumElementsAllowed := calcMaxNumElementsAllowed (t.mMask + 1) }

def nextHashMultiplier (t : Table κ ν) : Table κ ν :=
  { t with mHashMultiplier := t.mHashMultiplier + 0xc4ceb9fe1a85ec54 }

def insertMove (hash : κ → UInt64) (t : Table κ ν) (node : κ × ν) : TableExec (Table κ ν) := do
  let t ← if t.mMaxNumElementsAllowed = 0 then
      match ← t.tryIncreaseInfo with
      | some t => pure t
      | none => .error .overflowError
    else pure t
  let (info, idx) ← t.skipWhile (fun info byte => info ≤ byte) t.maxTurns (t.keyToIdx hash node.1)
  let (_, t) ← t.prepareSpot info idx (info % 256)
  t.setNode idx (some node)

def rehashPowerOfTwo (hash : κ → UInt64) (t : Table κ ν) (numBuckets : Nat) :
    TableExec (Table κ ν) :=
  if t.numElementsWithBuffer > 1 then
    (List.range t.numElementsWithBuffer).foldlM (fun t' i => do
      if (← t.infoAt i) ≠ 0 then t'.insertMove hash (← t.nodeAt i) else return t')
      (t.initData numBuckets)
  else return t.initData numBuckets

def increaseSize (hash : κ → UInt64) (t : Table κ ν) : TableExec (Table κ ν) := do
  if t.mMask = 0 then return t.initData initialNumElements
  let maxNumElementsAllowed := calcMaxNumElementsAllowed (t.mMask + 1)
  let increased ← if t.mNumElements < maxNumElementsAllowed then t.tryIncreaseInfo else pure none
  match increased with
  | some t => return t
  | none =>
    if t.mNumElements * 2 < maxNumElementsAllowed then
      t.nextHashMultiplier.rehashPowerOfTwo hash (t.mMask + 1)
    else t.rehashPowerOfTwo hash ((t.mMask + 1) * 2)

/-! ### Iterators -/

def countTrailingZeroes (word : Nat) : Nat := (List.range 64).findIdx word.testBit

/-- `fastForward`, to the next slot whose byte is not 0. -/
def fastForward (t : Table κ ν) : Nat → Nat → TableExec Nat
  | 0, _ => .error .undefined
  | turns + 1, idx =>
    if idx + 8 ≤ t.numBytesInfo then
      if loadWord t.mInfo idx = 0 then t.fastForward turns (idx + 8)
      else return idx + countTrailingZeroes (loadWord t.mInfo idx) / 8
    else .error .undefined

/-- `++pos`, of an iterator that points to an element. -/
def nextIdx (t : Table κ ν) (idx : Nat) : TableExec Nat := t.fastForward t.maxTurns (idx + 1)

/-! ### The functions that are called -/

inductive InsertionState where
  | overflowError | keyFound | newNode | overwriteNode
  deriving DecidableEq

section Calls
variable [DecidableEq κ]

def prepareEmptySpotLoop (hash : κ → UInt64) (key : κ) :
    Nat → Table κ ν → TableExec ((Nat × InsertionState) × Table κ ν)
  | 0, t => return ((0, .overflowError), t)
  | i + 1, t => do
    let p ← t.nextWhileLess (t.keyToIdx hash key)
    let (found, p) ← t.matchLoop key t.maxTurns p
    if found then return ((p.2, .keyFound), t)
    if t.mNumElements ≥ t.mMaxNumElementsAllowed then
      prepareEmptySpotLoop hash key i (← t.increaseSize hash)
    else
      let (new, t) ← t.prepareSpot p.1 p.2 p.1
      return ((p.2, if new then .newNode else .overwriteNode), t)

def insertKeyPrepareEmptySpot (hash : κ → UInt64) (t : Table κ ν) (key : κ) :
    TableExec ((Nat × InsertionState) × Table κ ν) :=
  prepareEmptySpotLoop hash key 256 t

/-- `emplace` and `insert`. The result is the slot of the key and whether it is new. -/
def emplace (hash : κ → UInt64) (t : Table κ ν) (key : κ) (value : ν) :
    TableExec ((Nat × Bool) × Table κ ν) := do
  let ((idx, state), t) ← t.insertKeyPrepareEmptySpot hash key
  match state with
  | .keyFound => return ((idx, false), t)
  | .newNode | .overwriteNode => return ((idx, true), ← t.setNode idx (some (key, value)))
  | .overflowError => .error .overflowError

/-- `find`, with what the iterator points to if it is not `end()`. -/
def find (hash : κ → UInt64) (t : Table κ ν) (key : κ) : TableExec (Option (Nat × ν)) := do
  let idx ← t.findIdx hash key
  if idx = t.endIdx then return none else return some (idx, (← t.nodeAt idx).2)

/-- What both functions `erase` do at the slot of an element. -/
def removeAt (t : Table κ ν) (idx : Nat) : TableExec (Table κ ν) := do
  let t ← t.shiftDown idx
  return { t with mNumElements := t.mNumElements - 1 }

/-- `erase` of the element that an iterator points to. The result points to the next element, which
may have been shifted to the same slot. -/
def eraseAt (t : Table κ ν) (idx : Nat) : TableExec (Nat × Table κ ν) := do
  let t ← t.removeAt idx
  if (← t.infoAt idx) ≠ 0 then return (idx, t) else return (← t.nextIdx idx, t)

def eraseLoop (t : Table κ ν) (key : κ) : Nat → Nat × Nat → TableExec (Option Nat)
  | 0, _ => .error .undefined
  | turns + 1, p => do
    if ← t.isAt key p then return some p.2
    let p := t.next p
    if p.1 ≤ (← t.infoAt p.2) then t.eraseLoop key turns p else return none

/-- `erase` of a key, and how many elements it has erased. -/
def erase (hash : κ → UInt64) (t : Table κ ν) (key : κ) : TableExec (Nat × Table κ ν) := do
  match ← t.eraseLoop key t.maxTurns (t.keyToIdx hash key) with
  | some idx => return (1, ← t.removeAt idx)
  | none => return (0, t)

/-- Writing to the value that an iterator points to. -/
def assign (t : Table κ ν) (idx : Nat) (f : ν → ν) : TableExec (Table κ ν) := do
  let node ← t.nodeAt idx
  t.setNode idx (some (node.1, f node.2))

end Calls

def beginIdx (t : Table κ ν) : TableExec Nat :=
  if t.mNumElements = 0 then return t.endIdx else t.fastForward t.maxTurns 0

def entriesLoop (t : Table κ ν) : Nat → Nat → TableExec (List (κ × ν))
  | 0, _ => .error .undefined
  | turns + 1, idx =>
    if idx = t.endIdx then return [] else do
      let node ← t.nodeAt idx
      return node :: (← t.entriesLoop turns (← t.nextIdx idx))

/-- What a loop `for (auto &entry : table)` visits. -/
def entries (t : Table κ ν) : TableExec (List (κ × ν)) := do
  t.entriesLoop t.maxTurns (← t.beginIdx)

end Table

end RapidTrader
