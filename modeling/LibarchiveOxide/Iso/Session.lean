import LibarchiveOxide.Iso.Writer

/-! # The states of the ISO writer

The writer is driven by calls that succeed (`Reachable`). In every state that they lead to the cursor is
inside the output and behind the sectors that were left free, and the nodes are a tree (`Tree`): a
child is no child of another node, nor twice of the same. -/

namespace LibarchiveOxide.Iso.Session

open Core.Failure Core.Budget Core.Metadata Lib.Result Stream.Event Stream.Seekable Iso.Fields
open Iso.Names Iso.Writer

variable {sizes : Sizes} {w w' : IsoSeekWriter} {nodes nodes' : List IsoNode}

/-! ### Nodes -/

theorem nodeAt_of_le {i : ℕ} (h : nodes.length ≤ i) : nodeAt nodes i = .root :=
  List.getD_eq_getElem?_getD.trans (by rw [List.getElem?_eq_none h]; rfl)

theorem nodeAt_modify (nodes : List IsoNode) (i j : ℕ) (f : IsoNode → IsoNode) :
    nodeAt (nodes.modify i f) j =
      if i = j ∧ j < nodes.length then f (nodeAt nodes j) else nodeAt nodes j := by
  unfold nodeAt
  rw [List.getD_eq_getElem?_getD, List.getD_eq_getElem?_getD, List.getElem?_modify]
  by_cases hj : j < nodes.length
  · rw [List.getElem?_eq_getElem hj]
    by_cases hij : i = j
    · rw [if_pos ⟨hij, hj⟩]
      simp [hij]
    · rw [if_neg (fun h => hij h.1)]
      simp [hij]
  · rw [List.getElem?_eq_none (by omega), if_neg (fun h => hj h.2)]
    split_ifs <;> rfl

theorem nodeAt_append (nodes : List IsoNode) (n : IsoNode) (j : ℕ) :
    nodeAt (nodes ++ [n]) j = if j = nodes.length then n else nodeAt nodes j := by
  unfold nodeAt
  rw [List.getD_eq_getElem?_getD, List.getD_eq_getElem?_getD]
  split_ifs with h
  · rw [h, List.getElem?_concat_length]
    rfl
  · by_cases hj : j < nodes.length
    · rw [List.getElem?_append_left hj]
    · rw [List.getElem?_eq_none (by rw [List.length_append, List.length_singleton]; omega),
        List.getElem?_eq_none (by omega)]

/-- **A tree**: every child knows its parent, and is listed once. -/
structure Tree (nodes : List IsoNode) : Prop where
  pos : 0 < nodes.length
  nodup : ∀ i, (nodeAt nodes i).children.Nodup
  child : ∀ i j, j ∈ (nodeAt nodes i).children →
    j < nodes.length ∧ j ≠ 0 ∧ (nodeAt nodes j).parent = i

/-- A change that leaves children and parents as they are. -/
theorem Tree.modify (h : Tree nodes) (i : ℕ) {f : IsoNode → IsoNode}
    (hc : ∀ n, (f n).children = n.children) (hp : ∀ n, (f n).parent = n.parent) :
    Tree (nodes.modify i f) := by
  have hchildren : ∀ j, (nodeAt (nodes.modify i f) j).children = (nodeAt nodes j).children := by
    intro j
    rw [nodeAt_modify]
    split_ifs
    · exact hc _
    · rfl
  have hparent : ∀ j, (nodeAt (nodes.modify i f) j).parent = (nodeAt nodes j).parent := by
    intro j
    rw [nodeAt_modify]
    split_ifs
    · exact hp _
    · rfl
  refine ⟨?_, fun j => ?_, fun j k hk => ?_⟩
  · rw [List.length_modify]
    exact h.pos
  · rw [hchildren]
    exact h.nodup j
  · rw [hchildren] at hk
    rw [List.length_modify, hparent]
    exact h.child j k hk

/-- A new child. -/
theorem Tree.childDirectory (h : Tree nodes) (parent : ℕ) (name : List Byte) :
    Tree (childDirectory nodes parent name).1 := by
  unfold Writer.childDirectory
  split
  · exact h
  · set added := nodes ++ [IsoNode.implicitDirectory name parent]
    set f : IsoNode → IsoNode := fun n => { n with children := n.children ++ [nodes.length] }
    have hlength : added.length = nodes.length + 1 := by
      rw [List.length_append, List.length_singleton]
    have hchildren : ∀ j, (nodeAt (added.modify parent f) j).children =
        if parent = j ∧ j < nodes.length + 1 then (nodeAt nodes j).children ++ [nodes.length]
        else (nodeAt nodes j).children := by
      intro j
      have hadded : (nodeAt added j).children = (nodeAt nodes j).children := by
        rw [nodeAt_append]
        split_ifs with hj
        · rw [nodeAt_of_le hj.ge]
          rfl
        · rfl
      rw [nodeAt_modify, hlength]
      split_ifs
      · exact congrArg (· ++ [nodes.length]) hadded
      · exact hadded
    have hparents : ∀ j, (nodeAt (added.modify parent f) j).parent =
        if j = nodes.length then parent else (nodeAt nodes j).parent := by
      intro j
      rw [nodeAt_modify, nodeAt_append]
      split_ifs <;> rfl
    have hold : ∀ i j, j ∈ (nodeAt nodes i).children → j < (added.modify parent f).length ∧
        j ≠ 0 ∧ (nodeAt (added.modify parent f) j).parent = i := by
      intro i j hj
      obtain ⟨hlt, hne, hp⟩ := h.child i j hj
      rw [List.length_modify, hlength, hparents, if_neg (by omega)]
      exact ⟨by omega, hne, hp⟩
    refine ⟨?_, fun j => ?_, fun i j hj => ?_⟩
    · rw [List.length_modify, hlength]
      exact Nat.succ_pos _
    · rw [hchildren]
      split_ifs
      · rw [List.nodup_append_comm, List.singleton_append, List.nodup_cons]
        exact ⟨fun hmem => absurd (h.child j _ hmem).1 (lt_irrefl _), h.nodup j⟩
      · exact h.nodup j
    · rw [hchildren] at hj
      split_ifs at hj with hip
      · rcases List.mem_append.mp hj with hj | hj
        · exact hold i j hj
        · rw [List.mem_singleton.mp hj, List.length_modify, hlength, hparents, if_pos rfl]
          have := h.pos
          exact ⟨by omega, by omega, hip.1⟩
      · exact hold i j hj

theorem Tree.childDirectories : ∀ {names : List (List Byte)} {nodes : List IsoNode} (_ : Tree nodes)
    (parent : ℕ), Tree (childDirectories nodes parent names).1
  | [], _, h, _ => h
  | name :: _, _, h, parent => (h.childDirectory parent name).childDirectories _

/-- An entry that is inserted. -/
theorem Tree.insertEntry {limits : Limits} {pending : PendingEntry} (h : Tree nodes)
    (hins : insertEntry nodes limits pending = .ok nodes') : Tree nodes' := by
  obtain ⟨leaf, -, hins⟩ := bind_eq_ok.mp hins
  obtain ⟨⟨lba, size⟩, -, hins⟩ := bind_eq_ok.mp hins
  cases hins
  exact ((h.childDirectories 0).childDirectory _ leaf).modify _ (fun _ => rfl) fun _ => rfl

/-! ### Calls -/

/-- A call for an entry that succeeds. -/
inductive EntryCall (sizes : Sizes) (w w' : IsoSeekWriter) : Prop where
  | start (metadata : EntryMetadata) : w.startEntry sizes metadata = .ok w' → EntryCall sizes w w'
  | data (bytes : List Byte) : w.writeData bytes = .ok w' → EntryCall sizes w w'
  | close : w.endEntry = .ok w' → EntryCall sizes w w'

/-- **The states that the writer can be in.** -/
inductive Reachable (sizes : Sizes) : IsoSeekWriter → Prop where
  | new (output : Output) (limits : Limits) : Reachable sizes (.new sizes output limits)
  | set {w w' : IsoSeekWriter} (metadata : ArchiveMetadata) : Reachable sizes w →
      w.setArchiveMetadata sizes metadata = .ok w' → Reachable sizes w'
  | entry {w w' : IsoSeekWriter} : Reachable sizes w → EntryCall sizes w w' → Reachable sizes w'

/-- What holds between any two calls. -/
structure Sound (w : IsoSeekWriter) : Prop where
  inside : w.output.Inside
  low : METADATA_START * SECTOR ≤ w.output.position
  tree : Tree w.nodes

theorem startEntry_ok {metadata : EntryMetadata} (h : w.startEntry sizes metadata = .ok w') :
    w'.output = w.output ∧ w'.nodes = w.nodes ∧ w'.archiveMetadata = w.archiveMetadata := by
  unfold IsoSeekWriter.startEntry at h
  obtain ⟨-, h⟩ := guard_eq_ok.mp h
  obtain ⟨components, -, h⟩ := bind_eq_ok.mp h
  obtain ⟨u, -, h⟩ := bind_eq_ok.mp h
  obtain ⟨missing, -, h⟩ := bind_eq_ok.mp h
  obtain ⟨projected, -, h⟩ := bind_eq_ok.mp h
  obtain ⟨-, h⟩ := guard_eq_ok.mp h
  obtain ⟨cost, -, h⟩ := bind_eq_ok.mp h
  obtain ⟨more, -, h⟩ := bind_eq_ok.mp h
  obtain ⟨accounting, -, h⟩ := bind_eq_ok.mp h
  obtain ⟨used, -, h⟩ := bind_eq_ok.mp h
  obtain ⟨-, h⟩ := guard_eq_ok.mp h
  obtain ⟨lba, -, h⟩ := bind_eq_ok.mp h
  cases h
  exact ⟨rfl, rfl, rfl⟩

theorem writeData_ok {bytes : List Byte} (h : w.writeData bytes = .ok w') :
    (w' = w ∨ w'.output = w.output.writeAll bytes) ∧ w'.nodes = w.nodes ∧
      w'.archiveMetadata = w.archiveMetadata := by
  unfold IsoSeekWriter.writeData at h
  obtain ⟨pending, -, h⟩ := bind_eq_ok.mp h
  by_cases hnil : bytes = []
  · rw [if_pos hnil] at h
    cases h
    exact ⟨.inl rfl, rfl, rfl⟩
  · rw [if_neg hnil] at h
    obtain ⟨-, h⟩ := guard_eq_ok.mp h
    obtain ⟨next, -, h⟩ := bind_eq_ok.mp h
    obtain ⟨-, h⟩ := guard_eq_ok.mp h
    obtain ⟨-, h⟩ := guard_eq_ok.mp h
    obtain ⟨total, -, h⟩ := bind_eq_ok.mp h
    obtain ⟨-, h⟩ := guard_eq_ok.mp h
    cases h
    exact ⟨.inr rfl, rfl, rfl⟩

theorem endEntry_ok (h : w.endEntry = .ok w') :
    (w'.output = w.output ∨ w'.output = padOutput w.output) ∧
      (∃ pending, insertEntry w.nodes w.limits pending = .ok w'.nodes) ∧
      w'.archiveMetadata = w.archiveMetadata := by
  unfold IsoSeekWriter.endEntry at h
  obtain ⟨pending, -, h⟩ := bind_eq_ok.mp h
  obtain ⟨-, h⟩ := guard_eq_ok.mp h
  obtain ⟨-, h⟩ := guard_eq_ok.mp h
  obtain ⟨nodes, hins, h⟩ := bind_eq_ok.mp h
  cases h
  refine ⟨?_, ⟨pending, hins⟩, rfl⟩
  dsimp only
  split_ifs
  · exact .inr rfl
  · exact .inl rfl

theorem setArchiveMetadata_ok {metadata : ArchiveMetadata}
    (h : w.setArchiveMetadata sizes metadata = .ok w') :
    w'.output = w.output ∧ w'.nodes = w.nodes ∧ w'.archiveMetadata = metadata := by
  unfold IsoSeekWriter.setArchiveMetadata at h
  obtain ⟨-, h⟩ := guard_eq_ok.mp h
  obtain ⟨-, h⟩ := guard_eq_ok.mp h
  obtain ⟨cost, -, h⟩ := bind_eq_ok.mp h
  obtain ⟨-, h⟩ := guard_eq_ok.mp h
  obtain ⟨used, -, h⟩ := bind_eq_ok.mp h
  cases h
  exact ⟨rfl, rfl, rfl⟩

/-- The archive metadata stay while entries are written. -/
theorem EntryCall.archiveMetadata (h : EntryCall sizes w w') :
    w'.archiveMetadata = w.archiveMetadata := by
  cases h with
  | start metadata h => exact (startEntry_ok h).2.2
  | data bytes h => exact (writeData_ok h).2.2
  | close h => exact (endEntry_ok h).2.2

/-- One call keeps the state sound. -/
theorem EntryCall.sound (h : EntryCall sizes w w') (hw : Sound w) : Sound w' := by
  cases h with
  | start metadata h =>
    obtain ⟨ho, hn, -⟩ := startEntry_ok h
    exact ⟨ho ▸ hw.inside, ho ▸ hw.low, hn ▸ hw.tree⟩
  | data bytes h =>
    obtain ⟨rfl | ho, hn, -⟩ := writeData_ok h
    · exact hw
    · refine ⟨ho ▸ hw.inside.writeAll, ?_, hn ▸ hw.tree⟩
      rw [ho]
      exact hw.low.trans (Nat.le_add_right _ _)
  | close h =>
    obtain ⟨ho | ho, ⟨pending, hins⟩, -⟩ := endEntry_ok h
    · exact ⟨ho ▸ hw.inside, ho ▸ hw.low, hw.tree.insertEntry hins⟩
    · refine ⟨ho ▸ hw.inside.writeAll, ?_, hw.tree.insertEntry hins⟩
      rw [ho]
      exact hw.low.trans (Nat.le_add_right _ _)

/-- **Every state that the calls lead to is sound.** -/
theorem Reachable.sound (h : Reachable sizes w) : Sound w := by
  induction h with
  | new output limits =>
    have hin : (output.seek 0).Inside := Nat.zero_le _
    refine ⟨hin.writeAll, ?_, Nat.one_pos, fun i => ?_, fun i j hj => ?_⟩
    · simp [IsoSeekWriter.new]
    · have : (nodeAt [IsoNode.root] i).children = [] := by
        cases i with
        | zero => rfl
        | succ i => rfl
      exact this ▸ List.nodup_nil
    · have : (nodeAt [IsoNode.root] i).children = [] := by
        cases i with
        | zero => rfl
        | succ i => rfl
      exact absurd (this ▸ hj) List.not_mem_nil
  | set metadata _ h ih =>
    obtain ⟨ho, hn, -⟩ := setArchiveMetadata_ok h
    exact ⟨ho ▸ ih.inside, ho ▸ ih.low, hn ▸ ih.tree⟩
  | entry _ h ih => exact h.sound ih

end LibarchiveOxide.Iso.Session

/-! # What the addresses do not change

The records of a directory are built three times, with other addresses each time. Their lengths, and what
they add to the continuation area, depend only on what the nodes are without their addresses
(`SameShape`). -/

namespace LibarchiveOxide.Iso.Shape

open Core.Failure Core.Metadata Lib.Result Stream.Event Iso.Fields Iso.Names Iso.Records Iso.Writer
open Iso.Finish Iso.Session

/-! ### Shapes -/

/-- A node without what `finish` finds out. -/
def bare (n : IsoNode) : IsoNode :=
  { n with
    directoryNumber := 0
    parentNumber := 0
    primaryLba := 0
    primarySize := 0
    jolietLba := 0
    jolietSize := 0 }

/-- The nodes are the same but for what `finish` finds out. -/
def SameShape (nodes nodes' : List IsoNode) : Prop := nodes.map bare = nodes'.map bare

variable {nodes nodes' : List IsoNode}

theorem SameShape.refl (nodes : List IsoNode) : SameShape nodes nodes := rfl

theorem SameShape.symm (h : SameShape nodes nodes') : SameShape nodes' nodes := Eq.symm h

theorem SameShape.trans {nodes'' : List IsoNode} (h : SameShape nodes nodes')
    (h' : SameShape nodes' nodes'') : SameShape nodes nodes'' := Eq.trans h h'

theorem SameShape.length (h : SameShape nodes nodes') : nodes.length = nodes'.length := by
  have := congrArg List.length h
  rwa [List.length_map, List.length_map] at this

theorem SameShape.bare (h : SameShape nodes nodes') (i : ℕ) :
    bare (nodeAt nodes i) = bare (nodeAt nodes' i) := by
  have hget : ∀ ns : List IsoNode, Shape.bare (nodeAt ns i) =
      ((ns.map Shape.bare)[i]?).getD (Shape.bare .root) := by
    intro ns
    rw [nodeAt, List.getD_eq_getElem?_getD, List.getElem?_map]
    cases ns[i]? with
    | none => rfl
    | some n => rfl
  rw [hget, hget, h]

/-- A change of what `finish` finds out. -/
theorem SameShape.modify (nodes : List IsoNode) (i : ℕ) {f : IsoNode → IsoNode}
    (hf : ∀ n, Shape.bare (f n) = Shape.bare n) : SameShape (nodes.modify i f) nodes := by
  refine List.ext_getElem? fun j => ?_
  rw [List.getElem?_map, List.getElem?_map, List.getElem?_modify]
  cases nodes[j]? with
  | none => rfl
  | some n =>
    by_cases hij : i = j
    · simp [hij, hf]
    · simp [hij]

/-- What does not depend on what `finish` finds out. -/
theorem SameShape.congr {β : Type} (h : SameShape nodes nodes') (f : IsoNode → β)
    (hf : ∀ n, f (Shape.bare n) = f n) (i : ℕ) : f (nodeAt nodes i) = f (nodeAt nodes' i) := by
  rw [← hf, h.bare, hf]

theorem SameShape.children (h : SameShape nodes nodes') (i : ℕ) :
    (nodeAt nodes i).children = (nodeAt nodes' i).children :=
  h.congr IsoNode.children (fun _ => rfl) i

theorem SameShape.name (h : SameShape nodes nodes') (i : ℕ) :
    (nodeAt nodes i).name = (nodeAt nodes' i).name := h.congr IsoNode.name (fun _ => rfl) i

theorem SameShape.parent (h : SameShape nodes nodes') (i : ℕ) :
    (nodeAt nodes i).parent = (nodeAt nodes' i).parent := h.congr IsoNode.parent (fun _ => rfl) i

theorem SameShape.sortByName (h : SameShape nodes nodes') (indices : List ℕ) :
    Writer.sortByName nodes indices = Writer.sortByName nodes' indices := by
  unfold Writer.sortByName
  simp only [h.name]

theorem SameShape.sortedChildren (h : SameShape nodes nodes') (i : ℕ) :
    Writer.sortedChildren nodes i = Writer.sortedChildren nodes' i := by
  rw [Writer.sortedChildren, Writer.sortedChildren, h.children, h.sortByName]

theorem SameShape.systemUse (h : SameShape nodes nodes') (i j : ℕ) (root dotRecord : Bool) :
    rockRidgeSystemUse (nodeAt nodes i) j root dotRecord =
      rockRidgeSystemUse (nodeAt nodes' i) j root dotRecord :=
  h.congr (fun n => rockRidgeSystemUse n j root dotRecord) (fun _ => rfl) i

theorem SameShape.childIdentifier (h : SameShape nodes nodes') (i : ℕ) (joliet : Bool) :
    Writer.childIdentifier (nodeAt nodes i) joliet = Writer.childIdentifier (nodeAt nodes' i) joliet :=
  h.congr (fun n => Writer.childIdentifier n joliet) (fun _ => rfl) i

theorem SameShape.directoryIdentifier (h : SameShape nodes nodes') (i : ℕ) (joliet : Bool) :
    Writer.directoryIdentifier nodes i joliet = Writer.directoryIdentifier nodes' i joliet := by
  unfold Writer.directoryIdentifier
  rw [h.name]

theorem SameShape.tree (h : SameShape nodes nodes') (ht : Tree nodes) : Tree nodes' := by
  refine ⟨h.length ▸ ht.pos, fun i => ?_, fun i j hj => ?_⟩
  · rw [← h.children]
    exact ht.nodup i
  · rw [← h.children] at hj
    rw [← h.length, ← h.parent]
    exact ht.child i j hj

/-! ### Records -/

variable {area area' : Option SuspContinuationArea} {systemUse identifier time record : List Byte}
  {directory joliet : Bool} {rs : List (List Byte)}

/-- A continuation area behind more bytes. -/
def grow (area : Option SuspContinuationArea) (more : List Byte) : Option SuspContinuationArea :=
  area.map fun a => { a with bytes := a.bytes ++ more }

theorem grow_nil (area : Option SuspContinuationArea) : grow area [] = area := by
  cases area with
  | none => rfl
  | some a => simp [grow]

theorem grow_grow (area : Option SuspContinuationArea) (u v : List Byte) :
    grow (grow area u) v = grow area (u ++ v) := by
  cases area with
  | none => rfl
  | some a => simp [grow]

/-- How much of the system-use data is in the record, if there is not room for all of it. -/
def inlineLength (systemUse : List Byte) (available : ℕ) : ℕ :=
  ((suspFieldPrefix systemUse (available - 28)).toOption).getD 0

/-- What of the system-use data goes into the continuation area. -/
def overflow (systemUse : List Byte) (available : ℕ) : List Byte :=
  if systemUse.length ≤ available then [] else systemUse.drop (inlineLength systemUse available)

/-- The length of the system-use data in the record. -/
def inRecordLength (systemUse : List Byte) (available : ℕ) : ℕ :=
  if systemUse.length ≤ available then systemUse.length else inlineLength systemUse available + 28

theorem length_continuationField {block offset length : ℕ} {field : List Byte}
    (h : Records.continuationField block offset length = .ok field) : field.length = 28 := by
  have hlen : (bothEndianU32 block ++ bothEndianU32 offset ++ bothEndianU32 length).length = 24 := by
    simp [bothEndianU32]
  unfold Records.continuationField suspField at h
  rw [hlen, if_neg (by decide)] at h
  cases h
  simp [bothEndianU32, bstr]

/-- Appending adds the bytes, and makes a field of 28 bytes. -/
theorem append_ok {area area' : SuspContinuationArea} {bytes field : List Byte}
    (h : area.append bytes = .ok (area', field)) :
    area' = { area with bytes := area.bytes ++ bytes } ∧ field.length = 28 := by
  unfold SuspContinuationArea.append at h
  obtain ⟨-, h⟩ := guard_eq_ok.mp h
  obtain ⟨-, h⟩ := guard_eq_ok.mp h
  obtain ⟨-, h⟩ := guard_eq_ok.mp h
  obtain ⟨f, hf, h⟩ := bind_eq_ok.mp h
  cases h
  exact ⟨rfl, length_continuationField hf⟩

/-- **The system-use data of a record**: how long they are and what goes into the area does not depend
on the area. -/
theorem recordSystemUse_ok {inRecord : List Byte} {available : ℕ}
    (h : recordSystemUse systemUse available area = .ok (inRecord, area')) :
    inRecord.length = inRecordLength systemUse available ∧
      area' = grow area (overflow systemUse available) := by
  unfold recordSystemUse at h
  by_cases hfits : systemUse.length ≤ available
  · rw [if_pos hfits] at h
    cases h
    rw [inRecordLength, overflow, if_pos hfits, if_pos hfits, grow_nil]
    exact ⟨rfl, rfl⟩
  · rw [if_neg hfits] at h
    rw [inRecordLength, overflow, if_neg hfits, if_neg hfits]
    split_ifs at h with hroom
    cases hinline : suspFieldPrefix systemUse (available - 28) with
    | error e =>
      rw [hinline] at h
      cases h
    | ok inline =>
      have hlength : inlineLength systemUse available = inline := by
        rw [inlineLength, hinline]
        rfl
      rw [hinline] at h
      rw [hlength]
      by_cases hlong : systemUse.length < inline
      · exact absurd h (by simp [hlong])
      simp only [if_neg hlong] at h
      cases area with
      | some a =>
        obtain ⟨⟨a', field⟩, happend, h⟩ := map_eq_ok.mp h
        obtain ⟨ha, hfield⟩ := append_ok happend
        cases h
        refine ⟨?_, by rw [ha]; rfl⟩
        rw [List.length_append, List.length_take_of_le (by omega), hfield]
      | none =>
        dsimp only at h
        split_ifs at h with hmax
        obtain ⟨field, hfield, h⟩ := map_eq_ok.mp h
        cases h
        refine ⟨?_, rfl⟩
        rw [List.length_append, List.length_take_of_le (by omega), length_continuationField hfield]

theorem length_recordBytes {lba size : ℕ} (htime : time.length = 7) :
    (recordBytes identifier lba size directory time systemUse).length =
      systemUseStart identifier.length + systemUse.length := by
  have h32 : ∀ v, (bothEndianU32 v).length = 8 := fun v => by simp [bothEndianU32]
  have h16 : (bothEndianU16 1).length = 4 := by simp [bothEndianU16]
  simp only [recordBytes, systemUseStart, List.length_append, List.length_cons, List.length_nil, h32,
    h16, htime, DIRECTORY_RECORD_BASE]
  split_ifs <;> simp only [List.length_cons, List.length_nil]

theorem length_recordingTime (n : IsoNode) : (recordingTime n).length = 7 := by
  unfold recordingTime
  cases h : (n.metadata.bind fun m => m.times.modified).bind shortTimestamp with
  | none => rfl
  | some time =>
    obtain ⟨t, -, ht⟩ := Option.bind_eq_some_iff.mp h
    obtain ⟨⟨year, month, day, hour, minute, second⟩, -, ht⟩ := Option.bind_eq_some_iff.mp ht
    dsimp only at ht
    split_ifs at ht
    cases ht
    rfl

/-- **A record**: its length and what goes into the area are known without the addresses. -/
theorem continuedDirectoryRecord_ok {lba size : ℕ} (htime : time.length = 7)
    (h : continuedDirectoryRecord identifier lba size directory time systemUse area =
      .ok (record, area')) :
    record.length = systemUseStart identifier.length +
        inRecordLength systemUse (255 - systemUseStart identifier.length) ∧
      record.length ≤ 255 ∧
      area' = grow area (overflow systemUse (255 - systemUseStart identifier.length)) := by
  unfold continuedDirectoryRecord at h
  obtain ⟨-, h⟩ := guard_eq_ok.mp h
  obtain ⟨⟨inRecord, a⟩, hsystem, h⟩ := bind_eq_ok.mp h
  obtain ⟨hmax, h⟩ := guard_eq_ok.mp h
  obtain ⟨-, h⟩ := guard_eq_ok.mp h
  cases h
  obtain ⟨hlength, harea⟩ := recordSystemUse_ok hsystem
  rw [length_recordBytes htime, hlength]
  exact ⟨rfl, by omega, harea⟩

theorem directoryRecord_ok {lba size : ℕ} (htime : time.length = 7)
    (h : directoryRecord identifier lba size directory time systemUse = .ok record) :
    record.length = systemUseStart identifier.length +
        inRecordLength systemUse (255 - systemUseStart identifier.length) ∧ record.length ≤ 255 := by
  obtain ⟨⟨r, area⟩, hrecord, h⟩ := map_eq_ok.mp h
  cases h
  obtain ⟨hlength, hmax, -⟩ := continuedDirectoryRecord_ok htime hrecord
  exact ⟨hlength, hmax⟩

/-- The record of a child. -/
theorem childRecord_ok {child : ℕ}
    (h : directoryRecordForChild nodes child joliet area = .ok (record, area')) :
    ∃ systemUse, (if joliet then .ok [] else rockRidgeSystemUse (nodeAt nodes child) child false false)
        = Except.ok systemUse ∧
      record.length = systemUseStart (childIdentifier (nodeAt nodes child) joliet).length +
        inRecordLength systemUse
          (255 - systemUseStart (childIdentifier (nodeAt nodes child) joliet).length) ∧
      record.length ≤ 255 ∧ area' = grow area (overflow systemUse
        (255 - systemUseStart (childIdentifier (nodeAt nodes child) joliet).length)) := by
  obtain ⟨systemUse, hsystem, h⟩ := bind_eq_ok.mp h
  exact ⟨systemUse, hsystem, continuedDirectoryRecord_ok (length_recordingTime _) h⟩

/-- Records with the same lengths, that add the same to the area. -/
structure Alike (rs rs' : List (List Byte)) (a a1 a' a1' : Option SuspContinuationArea) : Prop where
  lengths : rs.map List.length = rs'.map List.length
  short : ∀ r ∈ rs, r.length ≤ 255
  area : ∃ more, a1 = grow a more ∧ a1' = grow a' more

theorem childRecords_cons {child : ℕ} {children : List ℕ} {a a1 : Option SuspContinuationArea}
    (h : childRecords nodes joliet (child :: children) a = .ok (rs, a1)) :
    ∃ r b rs', directoryRecordForChild nodes child joliet a = .ok (r, b) ∧
      childRecords nodes joliet children b = .ok (rs', a1) ∧ rs = r :: rs' := by
  rw [childRecords] at h
  cases hr : directoryRecordForChild nodes child joliet a with
  | error e =>
    rw [hr] at h
    cases h
  | ok x =>
    obtain ⟨r, b⟩ := x
    rw [hr] at h
    dsimp only at h
    cases hrest : childRecords nodes joliet children b with
    | error e =>
      rw [hrest] at h
      cases h
    | ok y =>
      rw [hrest] at h
      cases h
      exact ⟨r, b, y.1, rfl, hrest, rfl⟩

/-- The records of the children. -/
theorem childRecords_alike (hs : SameShape nodes nodes') : ∀ {children : List ℕ}
    {rs rs' : List (List Byte)} {a a1 a' a1' : Option SuspContinuationArea},
    childRecords nodes joliet children a = .ok (rs, a1) →
    childRecords nodes' joliet children a' = .ok (rs', a1') → Alike rs rs' a a1 a' a1'
  | [], _, _, _, _, _, _, h, h' => by
    cases h
    cases h'
    exact ⟨rfl, nofun, [], (grow_nil _).symm, (grow_nil _).symm⟩
  | child :: children, rs, rs', a, a1, a', a1', h, h' => by
    obtain ⟨r, b, rs, hr, hrest, rfl⟩ := childRecords_cons h
    obtain ⟨r', b', rs', hr', hrest', rfl⟩ := childRecords_cons h'
    obtain ⟨hlengths, hshort, more, hb, hb'⟩ := childRecords_alike hs hrest hrest'
    obtain ⟨su, hsu, hlen, hmax, harea⟩ := childRecord_ok hr
    obtain ⟨su', hsu', hlen', -, harea'⟩ := childRecord_ok hr'
    rw [hs.systemUse, hsu', Except.ok.injEq] at hsu
    subst hsu
    rw [← hs.childIdentifier] at hlen' harea'
    rw [harea, grow_grow] at hb
    rw [harea', grow_grow] at hb'
    refine ⟨?_, List.forall_mem_cons.mpr ⟨hmax, hshort⟩, _, hb, hb'⟩
    rw [List.map_cons, List.map_cons, hlengths, hlen, hlen']

/-- **The records of a directory**, built with other addresses. -/
theorem buildDirectoryRecords_alike (hs : SameShape nodes nodes') {directory : ℕ}
    {rs' : List (List Byte)} {a a1 a' a1' : Option SuspContinuationArea}
    (h : buildDirectoryRecords nodes directory joliet a = .ok (rs, a1))
    (h' : buildDirectoryRecords nodes' directory joliet a' = .ok (rs', a1')) :
    Alike rs rs' a a1 a' a1' := by
  obtain ⟨su, hsu, h⟩ := bind_eq_ok.mp h
  obtain ⟨⟨own, b⟩, hown, h⟩ := bind_eq_ok.mp h
  obtain ⟨parent, hparent, h⟩ := bind_eq_ok.mp h
  obtain ⟨⟨records, c⟩, hrecords, h⟩ := bind_eq_ok.mp h
  cases h
  obtain ⟨su', hsu', h'⟩ := bind_eq_ok.mp h'
  obtain ⟨⟨own', b'⟩, hown', h'⟩ := bind_eq_ok.mp h'
  obtain ⟨parent', hparent', h'⟩ := bind_eq_ok.mp h'
  obtain ⟨⟨records', c'⟩, hrecords', h'⟩ := bind_eq_ok.mp h'
  cases h'
  rw [hs.systemUse, hsu', Except.ok.injEq] at hsu
  subst hsu
  rw [← hs.sortedChildren] at hrecords'
  obtain ⟨hlengths, hshort, more, hb, hb'⟩ := childRecords_alike hs hrecords hrecords'
  obtain ⟨hlen, hmax, harea⟩ := continuedDirectoryRecord_ok (length_recordingTime _) hown
  obtain ⟨hlen', -, harea'⟩ := continuedDirectoryRecord_ok (length_recordingTime _) hown'
  obtain ⟨hplen, hpmax⟩ := directoryRecord_ok (length_recordingTime _) hparent
  obtain ⟨hplen', -⟩ := directoryRecord_ok (length_recordingTime _) hparent'
  rw [harea, grow_grow] at hb
  rw [harea', grow_grow] at hb'
  refine ⟨?_, List.forall_mem_cons.mpr ⟨hmax, List.forall_mem_cons.mpr ⟨hpmax, hshort⟩⟩, _, hb, hb'⟩
  simp only [List.map_cons]
  rw [hlengths, hlen, hlen', hplen, hplen']

theorem layoutLength_congr {rs' : List (List Byte)} (h : rs.map List.length = rs'.map List.length) :
    layoutLength rs = layoutLength rs' := by
  rw [layoutLength, layoutLength, h]

end LibarchiveOxide.Iso.Shape
