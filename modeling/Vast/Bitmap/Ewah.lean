import Vast.Bitmap.Bits

/-! # EWAH bitmaps

A bitmap is a sequence of blocks, where markers count the clean and dirty blocks behind
them. The first block is a marker. The last block takes the next bits and is integrated
into the last marker when it is full and more bits follow.
-/

namespace Vast

open Word EwahWord

/-- A compressed bitmap. The number of bits is a machine word. -/
structure EwahBitmap where
  blocks : List Block
  lastMarker : Nat
  numBits : Nat
  deriving DecidableEq

namespace EwahBitmap

def empty : EwahBitmap where
  blocks := []
  lastMarker := 0
  numBits := 0

variable (bm : EwahBitmap)

def isEmpty : Bool :=
  bm.numBits = 0

/-! The operations on the vector of blocks. -/

def back : Block :=
  bm.blocks.getLastD 0#64

variable (block : Block)

def setBack : EwahBitmap :=
  { bm with blocks := bm.blocks.dropLast ++ [block] }

def pushBack : EwahBitmap :=
  { bm with blocks := bm.blocks ++ [block] }

def popBack : EwahBitmap :=
  { bm with blocks := bm.blocks.dropLast }

def markerBlock : Block :=
  bm.blocks.getD bm.lastMarker 0#64

def setMarker : EwahBitmap :=
  { bm with blocks := bm.blocks.set bm.lastMarker block }

/-- The last block becomes a marker. -/
def markBack : EwahBitmap :=
  { bm.setBack block with lastMarker := bm.blocks.length - 1 }

def addSize (n : Nat) : EwahBitmap :=
  { bm with numBits := (bm.numBits + n) % 2 ^ 64 }

/-! ## Appending -/

/-- Count the last block as a dirty one. If the counter is full, the block is moved behind
a new marker; the number is already a marker with one dirty block. -/
def bumpDirtyCount : EwahBitmap :=
  let numDirty := markerNumDirty bm.markerBlock
  if numDirty = markerDirtyMax then
    (bm.markBack (BitVec.ofNat 64 (markerNumDirty 1#64))).pushBack bm.back
  else bm.setMarker (setMarkerNumDirty bm.markerBlock (numDirty + 1))

def integrateLastBlock : EwahBitmap :=
  let lastBlock := bm.back
  let blocksAfterMarker := bm.blocks.length - bm.lastMarker - 1
  if allOrNone lastBlock then
    let cleanLength := markerNumClean bm.markerBlock
    let lastBlockType := lastBlock != 0#64
    if blocksAfterMarker = 1 ∧ cleanLength = 0 then
      (bm.setMarker (setMarkerNumClean (setMarkerType bm.markerBlock lastBlockType) 1)).popBack
    else if blocksAfterMarker = 1 ∧ lastBlockType = markerType bm.markerBlock ∧
        cleanLength ≠ markerCleanMax then
      (bm.setMarker (setMarkerNumClean bm.markerBlock (cleanLength + 1))).popBack
    else bm.markBack (setMarkerNumClean (setMarkerType 0#64 lastBlockType) 1)
  else bm.bumpDirtyCount

variable (bit : Bool)

def appendBit : EwahBitmap :=
  let used := bm.numBits % width
  let bm :=
    if bm.blocks = [] then (bm.pushBack 0#64).pushBack Word.none
    else if used = 0 then bm.integrateLastBlock.pushBack Word.none
    else bm
  let bm := if bit then bm.setBack (bm.back ||| (lsb1 <<< used)) else bm
  bm.addSize 1

/-- Put as many clean blocks as possible into the last marker, if it has no dirty blocks
and the same type or if it is still unused. The number of blocks that are left is
returned. -/
def reuseMarker (cleanBlocks : Nat) : EwahBitmap × Nat :=
  let marker := bm.markerBlock
  if (bm.lastMarker = bm.blocks.length - 1 ∧ markerType marker = bit) ∨
      (bm.lastMarker = 0 ∧ marker = 0#64) then
    let markerCleanLength := markerNumClean marker
    let available := markerCleanMax - markerCleanLength
    let newBlocks := min available cleanBlocks
    (bm.setMarker (setMarkerType (setMarkerNumClean marker (markerCleanLength + newBlocks)) bit),
      cleanBlocks - newBlocks)
  else (bm, cleanBlocks)

/-- Put clean blocks into new markers. -/
def newMarkers (cleanBlocks : Nat) : EwahBitmap :=
  let bm :=
    if bm.lastMarker = bm.blocks.length - 1 then
      bm.setMarker (setMarkerNumDirty bm.markerBlock 0)
    else bm
  let markers := cleanBlocks / markerCleanMax
  let last := cleanBlocks % markerCleanMax
  let blocks := bm.blocks ++ List.replicate markers (setMarkerType markerCleanMask bit) ++
    if last > 0 then [setMarkerType (setMarkerNumClean 0#64 last) bit] else []
  { bm with blocks := blocks, lastMarker := blocks.length - 1 }

def appendCleanBlocks (cleanBlocks : Nat) : EwahBitmap :=
  let (bm, cleanBlocks) := bm.reuseMarker bit cleanBlocks
  if cleanBlocks > 0 then bm.newMarkers bit cleanBlocks else bm

/-- Append bits at a block boundary. The last block is never clean, so a full block stays
behind. -/
def appendAligned (n : Nat) : EwahBitmap :=
  if n ≤ width then (bm.pushBack (if bit then lsbFill n else Word.none)).addSize n
  else
    let (cleanBlocks, remainingBits) :=
      if n % width = 0 then (n / width - 1, width) else (n / width, n % width)
    let bm := (bm.addSize n).appendCleanBlocks bit cleanBlocks
    if remainingBits > 0 then
      bm.pushBack (if bit then lsbFill remainingBits else Word.none)
    else bm

def appendBits (n : Nat) : EwahBitmap :=
  if n = 0 then bm
  else if bm.blocks = [] then (bm.pushBack 0#64).appendAligned bit n
  else
    let used := bm.numBits % width
    if used > 0 then
      let fill := min n (width - used)
      let bm := if bit then bm.setBack (bm.back ||| (lsbMask fill <<< used)) else bm
      let bm := bm.addSize fill
      if n - fill = 0 then bm else bm.integrateLastBlock.appendAligned bit (n - fill)
    else bm.integrateLastBlock.appendAligned bit n

/-- Append the first bits of a block, at least one and at most all of them. -/
def appendBlock (value : Block) (bits : Nat) : EwahBitmap :=
  let bm :=
    if bm.blocks = [] then bm.pushBack 0#64
    else if bm.numBits % width = 0 then bm.integrateLastBlock
    else bm
  let used := bm.numBits % width
  if used = 0 then (bm.pushBack (value &&& lsbFill bits)).addSize bits
  else
    let unused := width - used
    if bits ≤ unused then
      (bm.setBack (bm.back ||| ((value &&& lsbFill bits) <<< used))).addSize bits
    else
      let bm := (bm.setBack (bm.back ||| ((value &&& lsbFill unused) <<< used))).addSize unused
      let bm := bm.integrateLastBlock
      let remaining := bits - unused
      (bm.pushBack ((value >>> unused) &&& lsbFill remaining)).addSize remaining

/-! ## Complement -/

/-- Complement a block of the loop, and return the position of the next marker. -/
def flipBlock (blocks : List Block) (i : UInt32) (nextMarker : Nat) : List Block × Nat :=
  let block := blocks.getD i.toNat 0#64
  if i.toNat = nextMarker then
    let flipped := if markerNumClean block > 0 then block ^^^ msb1 else block
    (blocks.set i.toNat flipped, nextMarker + markerNumDirty flipped + 1)
  else (blocks.set i.toNat (~~~block), nextMarker)

/-- The loop over all blocks but the last one. Its counter has 32 bits. -/
def flipLoop : Nat → List Block → UInt32 → Nat → Option (List Block)
  | 0, _, _, _ => none
  | fuel + 1, blocks, i, nextMarker =>
    if i.toNat < blocks.length - 1 then
      let (blocks, nextMarker) := flipBlock blocks i nextMarker
      flipLoop fuel blocks (i + 1) nextMarker
    else some blocks

/-- Complement the last block without its unused bits. -/
def flipBack : EwahBitmap :=
  let bm := bm.setBack (~~~bm.back)
  let used := bm.numBits % width
  if used > 0 then bm.setBack (bm.back &&& lsbMask used) else bm

/-- The complement, if the loop ends. It takes a step for every block or does not end. -/
def flip : Option EwahBitmap :=
  if bm.blocks = [] then some bm
  else
    (flipLoop bm.blocks.length bm.blocks 0 0).map fun blocks =>
      flipBack { bm with blocks := blocks }

/-- Equality ignores the last marker. -/
def equal (x y : EwahBitmap) : Bool :=
  x.blocks == y.blocks && x.numBits == y.numBits

/-! ## Ranges -/

/-- Add the clean blocks of the next markers, as long as no dirty blocks are in between
and the type is the same. The last block is not a marker. -/
def mergeMarkers (data : Bool) : Nat → Nat → List Block → Nat × Nat × List Block
  | length, 0, nextMarker :: block :: blocks =>
    if markerType nextMarker != data then (length, 0, nextMarker :: block :: blocks)
    else
      mergeMarkers data ((length + markerNumClean nextMarker * width) % 2 ^ 64)
        (markerNumDirty nextMarker) (block :: blocks)
  | length, numDirty, blocks => (length, numDirty, blocks)

/-- The next sequence of the blocks that are left, given the number of dirty blocks behind
the current marker. -/
def scan (size : Nat) : Nat → List Block → Bits × Nat × List Block
  | numDirty, [] => (Bits.empty, numDirty, [])
  | numDirty, [block] =>
    let used := size % width
    (Bits.make block (if used = 0 then width else used), numDirty, [])
  | numDirty + 1, block :: next :: blocks => (Bits.make block width, numDirty, next :: blocks)
  | 0, block :: next :: blocks =>
    let numClean := markerNumClean block
    let numDirty := markerNumDirty block
    if numClean = 0 then scan size numDirty (next :: blocks)
    else
      let type := markerType block
      let (length, numDirty, blocks) :=
        mergeMarkers type (numClean * width) numDirty (next :: blocks)
      (Bits.make (if type then all else Word.none) length, numDirty, blocks)

/-- The sequences of the blocks that are left. Every sequence takes a block. -/
def scanAll (size : Nat) : Nat → Nat → List Block → List Bits
  | 0, _, _ => []
  | _ + 1, _, [] => []
  | fuel + 1, numDirty, block :: blocks =>
    let (bits, numDirty, rest) := scan size numDirty (block :: blocks)
    bits :: scanAll size fuel numDirty rest

/-- The sequences of a bitmap. The range of an empty bitmap does not scan its first
block. -/
def bitRange : List Bits :=
  match bm.blocks with
  | [] => []
  | block :: blocks =>
    if bm.isEmpty then Bits.empty :: scanAll bm.numBits blocks.length 0 blocks
    else scanAll bm.numBits (blocks.length + 1) 0 (block :: blocks)

def appendSequence (xs : Bits) : EwahBitmap :=
  if xs.isRun then bm.appendBits (xs.data != 0#64) xs.size
  else if !xs.isEmpty then bm.appendBlock xs.data xs.size
  else bm

def append (bm other : EwahBitmap) : EwahBitmap :=
  other.bitRange.foldl appendSequence bm

end EwahBitmap

end Vast
