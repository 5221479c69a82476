import LibarchiveOxide.SevenZip.Wire

/-! # Folders: coder graphs

A folder is a graph of coders with bind pairs and packed streams. Every graph can be parsed; what
can be decoded is decided later (`isDecodable`). `resolveFolder` orders the coders, dependencies
first, and rejects cycles and streams with two sources. -/

namespace LibarchiveOxide.SevenZip.Graph

open Core.Failure Lib SevenZip.Wire

/-- The instruction families of the branch filters. -/
inductive BranchKind where
  | x86
  | arm
  | armThumb
  | arm64
  | ppc
  | sparc
  | ia64
  | riscV
deriving DecidableEq

/-- The general-purpose coders that are reused. -/
inductive FilterId where
  | deflate
  | bzip2
  | zstd
deriving DecidableEq

/-- A coder that reuses an existing codec. -/
inductive SevenFilter where
  | delta (distance : ℕ)
  | bcj (kind : BranchKind) (start : ℕ)
  | pipeline (filter : FilterId)
deriving DecidableEq

/-- The archive-public parameters of an AES coder. -/
structure AesParams where
  ncp : ℕ
  salt : List Byte
  iv : List Byte
deriving DecidableEq

/-- One coder's decode method. -/
inductive CoderMethod where
  | lzma2 (dictProp : Byte)
  | lzma (props : List Byte)
  | ppmd7 (order memorySize : ℕ)
  | bcj2
  | filter (f : SevenFilter)
  | aes (params : AesParams)
  | unsupported
deriving DecidableEq

/-- How the crate is built: its features, the ranges of model orders and memory sizes that the PPMd
package allows, and the sizes of two of its structures. -/
structure Build where
  bzip2 : Bool := true
  zstd : Bool := true
  aes : Bool := true
  ppmd7MinOrder : ℕ := 2
  ppmd7MaxOrder : ℕ := 64
  ppmd7MinMemSize : ℕ := 2 ^ 11
  ppmd7MaxMemSize : ℕ := 2 ^ 32 - 37
  sizeOfFileRec : ℕ := 208
  sizeOfStoredEntry : ℕ := 80
deriving DecidableEq

/-- One coder of a graph, with its numbers of input and output streams. -/
structure Coder where
  method : CoderMethod
  numIn : ℕ
  numOut : ℕ
deriving DecidableEq

/-- A link from an output stream to an input stream. -/
structure BindPair where
  inIndex : ℕ
  outIndex : ℕ
deriving DecidableEq

/-- A parsed coder graph. -/
structure Folder where
  coders : List Coder
  bindPairs : List BindPair
  packedIndices : List ℕ
deriving DecidableEq

namespace Folder

/-- The input streams of all coders. -/
def totalIn (f : Folder) : ℕ := (f.coders.map Coder.numIn).sum

/-- The output streams of all coders. -/
def totalOut (f : Folder) : ℕ := (f.coders.map Coder.numOut).sum

/-- The first input stream of a coder. -/
def inBase (f : Folder) (index : ℕ) : ℕ := ((f.coders.take index).map Coder.numIn).sum

/-- The loop of `coder_of_out`. -/
def coderOfOutLoop (out : ℕ) : List Coder → ℕ → ℕ → Option ℕ
  | [], _, _ => none
  | c :: cs, index, base =>
    if out < base + c.numOut then some index else coderOfOutLoop out cs (index + 1) (base + c.numOut)

/-- The coder of an output stream. -/
def coderOfOut (f : Folder) (out : ℕ) : Option ℕ := coderOfOutLoop out f.coders 0 0

/-- The output stream that no bind pair consumes: the folder's result. -/
def finalOutIndex (f : Folder) : Except HeaderError ℕ :=
  okOr ((List.range f.totalOut).find? fun out => !(f.bindPairs.any fun p => p.outIndex == out))
    (.malformed "7z: folder has no final output stream")

/-- A chain of coders with one input and one output each, fed by one pack stream. -/
def isLinearChain (f : Folder) : Bool :=
  f.packedIndices.length == 1 &&
    f.coders.all fun c => c.numIn == 1 && c.numOut == 1 && c.method != .bcj2

end Folder

/-! ### Methods -/

/-- `bcj_branch_kind`. -/
def bcjBranchKind (codec : List Byte) : Option BranchKind :=
  if codec = [0x03, 0x03, 0x01, 0x03] then some .x86
  else if codec = [0x03, 0x03, 0x05, 0x01] then some .arm
  else if codec = [0x03, 0x03, 0x07, 0x01] then some .armThumb
  else if codec = [0x0A] then some .arm64
  else if codec = [0x03, 0x03, 0x02, 0x05] then some .ppc
  else if codec = [0x03, 0x03, 0x08, 0x05] then some .sparc
  else if codec = [0x03, 0x03, 0x04, 0x01] then some .ia64
  else if codec = [0x0B] then some .riscV
  else none

/-- `AesParams::parse`. The unused ends of the fixed-size salt and IV are left out. -/
def AesParams.parse : List Byte → Option AesParams
  | [] => none
  | b0 :: more =>
    let ncp := b0.toNat % 0x40
    if ncp = 0x3F ∨ 24 < ncp then none
    else
      let b1 := (more.head?.getD 0).toNat
      let data := more.drop 1
      let ivSize := b0.toNat / 64 % 2 + b1 % 16
      let saltSize := b0.toNat / 128 % 2 + b1 / 16
      if 16 < saltSize ∨ 16 < ivSize then none
      else if data.length < saltSize + ivSize then none
      else some ⟨ncp, data.take saltSize, (data.drop saltSize).take ivSize⟩

/-- `classify_method`. -/
def classifyMethod (b : Build) (codec props : List Byte) : Except HeaderError CoderMethod :=
  if codec = [0x21] then
    match props with
    | [dictProp] => .ok (.lzma2 dictProp)
    | _ => .error (.unsupported "7z: unexpected LZMA2 property size")
  else if codec = [0x03, 0x01, 0x01] then
    if props.length ≠ 5 then .error (.unsupported "7z: unexpected LZMA property size")
    else .ok (.lzma props)
  else if codec = [0x03, 0x04, 0x01] then
    match props with
    | [order, m0, m1, m2, m3] =>
      let order := order.toNat
      let memorySize := leValue [m0, m1, m2, m3]
      if order < b.ppmd7MinOrder ∨ b.ppmd7MaxOrder < order then
        .error (.malformed "7z: invalid PPMd model order")
      else if memorySize < b.ppmd7MinMemSize ∨ b.ppmd7MaxMemSize < memorySize then
        .error (.malformed "7z: invalid PPMd memory size")
      else .ok (.ppmd7 order memorySize)
    | _ => .error (.malformed "7z: unexpected PPMd property size")
  else if codec = [0x03, 0x03, 0x01, 0x1B] then
    if props ≠ [] then .error (.malformed "7z: BCJ2 coder must not carry properties")
    else .ok .bcj2
  else if codec = [0x03] then
    match props with
    | [] => .ok (.filter (.delta 1))
    | [prop] => .ok (.filter (.delta (prop.toNat + 1)))
    | _ => .ok .unsupported
  else
    match bcjBranchKind codec with
    | some kind =>
      match props with
      | [] => .ok (.filter (.bcj kind 0))
      | [s0, s1, s2, s3] => .ok (.filter (.bcj kind (leValue [s0, s1, s2, s3])))
      | _ => .ok .unsupported
    | none =>
      if codec = [0x04, 0x01, 0x08] then .ok (.filter (.pipeline .deflate))
      else if codec = [0x04, 0x02, 0x02] then
        .ok (if b.bzip2 then .filter (.pipeline .bzip2) else .unsupported)
      else if codec = [0x04, 0xF7, 0x11, 0x01] then
        .ok (if b.zstd then .filter (.pipeline .zstd) else .unsupported)
      else if codec = [0x06, 0xF1, 0x07, 0x01] then
        .ok (if b.aes then
          match AesParams.parse props with
          | some params => .aes params
          | none => .unsupported
        else .unsupported)
      else .ok .unsupported

/-! ### Parsing a folder -/

/-- `read_coder`. -/
def readCoder (b : Build) : Parse Coder := do
  let flags ← u8
  if flags.toNat / 0x80 % 2 ≠ 0 then
    unsupported "7z: alternative coder methods are unsupported"
  let codec ← bytes (flags.toNat % 0x10)
  let (numIn, numOut) ←
    if flags.toNat / 0x10 % 2 ≠ 0 then do
      let numIn ← number
      let numOut ← number
      let left ← remaining
      if left < numIn ∨ left < numOut then
        malformed "7z: coder stream count exceeds header size"
      if numIn = 0 ∨ numOut = 0 then
        malformed "7z: coder has no input or output streams"
      pure (numIn, numOut)
    else pure (1, 1)
  let props ←
    if flags.toNat / 0x20 % 2 ≠ 0 then do
      let propSize ← number
      bytes propSize
    else pure []
  let method ← liftM (classifyMethod b codec props)
  if method = .bcj2 ∧ (numIn ≠ 4 ∨ numOut ≠ 1) then
    malformed "7z: BCJ2 junction must have four inputs and one output"
  pure ⟨method, numIn, numOut⟩

/-- The indices fed by pack streams: a single one is implicit, the input that no bind pair feeds. -/
def readPackedIndices (totalIn numPacked : ℕ) (bindPairs : List BindPair) : Parse (List ℕ) :=
  if numPacked = 1 then
    match (List.range totalIn).find? fun input => !(bindPairs.any fun p => p.inIndex == input) with
    | some index => pure [index]
    | none => malformed "7z: no free packed input stream"
  else Parser.times number numPacked

/-- One bind pair. -/
def readBindPair : Parse BindPair := do
  let inIndex ← number
  let outIndex ← number
  pure ⟨inIndex, outIndex⟩

/-- `read_folder`. -/
def readFolder (b : Build) : Parse Folder := do
  let numCoders ← number
  if numCoders = 0 then malformed "7z: folder has no coders"
  let left ← remaining
  if left < numCoders then malformed "7z: coder count exceeds header size"
  let coders ← Parser.times (readCoder b) numCoders
  let totalIn := (coders.map Coder.numIn).sum
  let totalOut := (coders.map Coder.numOut).sum
  if totalOut = 0 then malformed "7z: folder has no output streams"
  let numBindPairs := totalOut - 1
  let left ← remaining
  if left < numBindPairs then malformed "7z: bind-pair count exceeds header size"
  let bindPairs ← Parser.times readBindPair numBindPairs
  if totalIn ≤ numBindPairs then malformed "7z: folder has no packed input streams"
  let packedIndices ← readPackedIndices totalIn (totalIn - numBindPairs) bindPairs
  pure ⟨coders, bindPairs, packedIndices⟩

/-! ### The decode order -/

/-- The marks of the depth-first search. -/
inductive DfsMark where
  | unvisited
  | inProgress
  | done
deriving DecidableEq

/-- `visit_coder`. Each call from inside a call is for another unvisited coder, so their number
bounds the depth. -/
def visitCoder (f : Folder) : ℕ → ℕ → List DfsMark × List ℕ →
    Except HeaderError (List DfsMark × List ℕ)
  | 0, _, _ => .error (.malformed "7z: cyclic coder graph")
  | fuel + 1, coder, (marks, order) =>
    match marks[coder]? with
    | some .done => .ok (marks, order)
    | some .inProgress => .error (.malformed "7z: cyclic coder graph")
    | _ => do
      let inBase := f.inBase coder
      let numIn := (f.coders[coder]?.map Coder.numIn).getD 0
      let (marks, order) ← (List.range numIn).foldlM (fun st local_ =>
        match f.bindPairs.find? fun p => p.inIndex == inBase + local_ with
        | none => .ok st
        | some pair =>
          match f.coderOfOut pair.outIndex with
          | none => .error (.malformed "7z: bind pair output has no coder")
          | some producer => visitCoder f fuel producer st)
        (marks.set coder .inProgress, order)
      .ok (marks.set coder .done, order ++ [coder])

/-- The number of sources of each input stream: bind pairs, then packed streams. -/
def inSources (f : Folder) : List ℕ :=
  (List.range f.totalIn).map fun i =>
    f.bindPairs.countP (fun p => p.inIndex == i) + f.packedIndices.countP (fun p => p == i)

/-- The number of consumers of each output stream. -/
def outConsumers (f : Folder) : List ℕ :=
  (List.range f.totalOut).map fun i => f.bindPairs.countP (fun p => p.outIndex == i)

/-- `resolve_folder`. -/
def resolveFolder (f : Folder) : Except HeaderError (List ℕ) :=
  if f.bindPairs.any fun p => decide (f.totalIn ≤ p.inIndex ∨ f.totalOut ≤ p.outIndex) then
    .error (.malformed "7z: bind pair references a missing stream")
  else if f.packedIndices.any fun p => decide (f.totalIn ≤ p) then
    .error (.malformed "7z: packed stream references a missing input")
  else if (inSources f).any (· != 1) then
    .error (.malformed "7z: overlapping or unfed folder input stream")
  else if (outConsumers f).any (fun n => decide (1 < n)) then
    .error (.malformed "7z: overlapping folder output stream")
  else do
    let finalOut ← f.finalOutIndex
    let sink ← okOr (f.coderOfOut finalOut) (.malformed "7z: final output has no coder")
    let (_, order) ← visitCoder f (f.coders.length + 1) sink
      (List.replicate f.coders.length .unvisited, [])
    .ok order

/-- One folder with its pack streams, its output sizes and its decode order. -/
structure FolderInfo where
  graph : Folder
  packOffset : ℕ
  packSizes : List ℕ
  unpackSize : ℕ
  outputSizes : List ℕ
  decodeOrder : List ℕ
  substreamSizes : List ℕ
  substreamCrcs : List (Option UInt32)
deriving DecidableEq

namespace FolderInfo

/-- The packed bytes of a folder. -/
def packSpan (f : FolderInfo) : ℕ := f.packSizes.sum

/-- The graph has one of the shapes that can be decoded. -/
def isDecodable (f : FolderInfo) : Bool :=
  (f.graph.coders.all fun c => c.method != .unsupported) &&
    (f.graph.isLinearChain ||
      ((f.graph.coders.all fun c =>
          if c.method = .bcj2 then c.numIn == 4 && c.numOut == 1
          else c.numIn == 1 && c.numOut == 1) &&
        (f.graph.coders.countP fun c => c.method == .bcj2) == 1 &&
        f.decodeOrder.length == f.graph.coders.length))

/-- The folder has an AES coder. -/
def isEncrypted (f : FolderInfo) : Bool :=
  f.graph.coders.any fun c =>
    match c.method with
    | .aes _ => true
    | _ => false

end FolderInfo

end LibarchiveOxide.SevenZip.Graph
