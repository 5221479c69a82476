import LibarchiveOxide.Iso.Session
import LibarchiveOxide.Lib.Slice

/-! # Planning an ISO image

`finish` visits every directory once (`orderLoop_ok`), gives it the size that its records will have
(`Sized`), and gives the regions addresses one behind the other (`Placed`). -/

namespace LibarchiveOxide.Iso.Planning

open Core.Failure Core.Metadata Lib.Result Stream.Event Iso.Fields Iso.Names Iso.Records Iso.Writer
open Iso.Finish Iso.Session Iso.Shape

variable {nodes nodes' : List IsoNode} {order queue : List ℕ} {joliet : Bool}

/-! ### The order of the directories -/

/-- Directories that were visited and some that will be: none twice, and each but the root is a child
of one that was visited. -/
structure Visited (nodes : List IsoNode) (order queue : List ℕ) : Prop where
  nodup : (order ++ queue).Nodup
  lt : ∀ x ∈ order ++ queue, x < nodes.length
  parent : ∀ x ∈ order ++ queue, x = 0 ∨ (nodeAt nodes x).parent ∈ order

theorem Visited.congr (h : Visited nodes order queue) (hs : SameShape nodes nodes') :
    Visited nodes' order queue := by
  refine ⟨h.nodup, fun x hx => hs.length ▸ h.lt x hx, fun x hx => ?_⟩
  rw [← hs.parent]
  exact h.parent x hx

/-- The first of the queue is visited, and its children come into the queue. -/
theorem Visited.step {directory : ℕ} {children : List ℕ} (ht : Tree nodes)
    (h : Visited nodes order (directory :: queue)) (hnodup : children.Nodup)
    (hchildren : ∀ c ∈ children, c ∈ (nodeAt nodes directory).children) :
    Visited nodes (order ++ [directory]) (queue ++ children) := by
  have happend : order ++ [directory] ++ (queue ++ children) =
      order ++ directory :: queue ++ children := by simp
  have hfresh : directory ∉ order := by
    have := h.nodup
    rw [List.nodup_append] at this
    intro hmem
    exact this.2.2 directory hmem directory List.mem_cons_self rfl
  have hchild : ∀ c ∈ children, c < nodes.length ∧ c ≠ 0 ∧ (nodeAt nodes c).parent = directory :=
    fun c hc => ht.child directory c (hchildren c hc)
  refine ⟨?_, fun x hx => ?_, fun x hx => ?_⟩
  · rw [happend, List.nodup_append]
    refine ⟨h.nodup, hnodup, fun x hx c hc hxc => ?_⟩
    subst hxc
    -- a child that was seen already would have a parent that was visited
    obtain ⟨-, hne, hp⟩ := hchild x hc
    rcases h.parent x hx with h0 | hmem
    · exact hne h0
    · exact hfresh (hp ▸ hmem)
  · rw [happend] at hx
    rcases List.mem_append.mp hx with hx | hx
    · exact h.lt x hx
    · exact (hchild x hx).1
  · rw [happend] at hx
    rcases List.mem_append.mp hx with hx | hx
    · exact (h.parent x hx).imp_right fun hmem => List.mem_append_left _ hmem
    · rw [(hchild x hx).2.2]
      exact .inr (List.mem_append_right _ (List.mem_singleton_self _))

theorem numberChildren_ok {parentNumber : ℕ} : ∀ {children : List ℕ} {nodes : List IsoNode}
    {number number' : ℕ}, numberChildren parentNumber children nodes number =
      .ok (nodes', number') → number ≤ 65535 →
      SameShape nodes' nodes ∧ number' = number + children.length ∧ number' ≤ 65535
  | [], nodes, number, number', h, hle => by
    cases h
    exact ⟨.refl _, rfl, hle⟩
  | child :: children, nodes, number, number', h, _ => by
    rw [numberChildren] at h
    split_ifs at h with hmax
    obtain ⟨hs, hn, hle⟩ := numberChildren_ok h (by omega)
    refine ⟨hs.trans (.modify _ _ fun _ => rfl), ?_, hle⟩
    rw [List.length_cons]
    omega

/-- **The order**: it comes to an end, and has no directory twice. -/
theorem orderLoop_ok : ∀ {rounds number : ℕ} {queue order : List ℕ} {nodes : List IsoNode},
    Tree nodes → Visited nodes order queue → number = order.length + queue.length + 1 →
    number ≤ 65535 → 65536 ≤ rounds + order.length →
    ∃ r, orderLoop rounds queue number order nodes = some r ∧
      ∀ order' nodes', r = .ok (order', nodes') → SameShape nodes' nodes ∧ order'.Nodup ∧
        ∀ d ∈ order', d < nodes.length := by
  intro rounds
  induction rounds with
  | zero =>
    intro number queue order nodes _ hv hnumber hle hrounds
    omega
  | succ rounds ih =>
    intro number queue order nodes ht hv hnumber hle hrounds
    cases queue with
    | nil =>
      refine ⟨_, rfl, fun order' nodes' h => ?_⟩
      cases h
      have hnodup := hv.nodup
      have hlt := hv.lt
      rw [List.append_nil] at hnodup hlt
      exact ⟨.refl _, hnodup, hlt⟩
    | cons directory queue =>
      rw [orderLoop]
      set children := sortByName nodes
        ((nodeAt nodes directory).children.filter fun child => (nodeAt nodes child).isDirectory)
      have hperm : children.Perm
          ((nodeAt nodes directory).children.filter fun child => (nodeAt nodes child).isDirectory) :=
        List.perm_insertionSort _ _
      cases hnum : numberChildren (nodeAt nodes directory).directoryNumber children nodes number with
      | error e =>
        refine ⟨_, rfl, nofun⟩
      | ok x =>
        obtain ⟨nodes1, number1⟩ := x
        obtain ⟨hs, hn1, hle1⟩ := numberChildren_ok hnum hle
        have hstep : Visited nodes (order ++ [directory]) (queue ++ children) := by
          refine hv.step ht (hperm.nodup_iff.mpr ((ht.nodup directory).filter _)) fun c hc => ?_
          exact (List.mem_filter.mp (hperm.mem_iff.mp hc)).1
        have hcount : number1 = (order ++ [directory]).length + (queue ++ children).length + 1 := by
          simp only [List.length_append, List.length_cons, List.length_nil] at hnumber ⊢
          omega
        have hleft : 65536 ≤ rounds + (order ++ [directory]).length := by
          rw [List.length_append, List.length_singleton]
          omega
        obtain ⟨r, hr, hok⟩ := ih (hs.symm.tree ht) (hstep.congr hs.symm) hcount hle1 hleft
        refine ⟨r, hr, fun order' nodes' h => ?_⟩
        obtain ⟨hs', hnodup, hlt⟩ := hok order' nodes' h
        exact ⟨hs'.trans hs, hnodup, fun d hd => hs.length ▸ hlt d hd⟩

theorem orderDirectories_ok (ht : Tree nodes) : ∃ r, orderDirectories nodes = some r ∧
    ∀ order' nodes', r = .ok (order', nodes') → SameShape nodes' nodes ∧ order'.Nodup ∧
      ∀ d ∈ order', d < nodes.length := by
  have hv : Visited nodes [] [0] := by
    refine ⟨List.nodup_singleton 0, fun x hx => ?_, fun x hx => .inl (List.mem_singleton.mp hx)⟩
    rw [List.mem_singleton.mp hx]
    exact ht.pos
  exact orderLoop_ok ht hv rfl (by decide) (by decide)

/-! ### The records of all directories -/

/-- The records of directories, one after another, and the continuation area behind them. -/
inductive Built (nodes : List IsoNode) (joliet : Bool) : List ℕ → List (List (List Byte)) →
    Option SuspContinuationArea → Option SuspContinuationArea → Prop where
  | nil {a : Option SuspContinuationArea} : Built nodes joliet [] [] a a
  | cons {d : ℕ} {ds : List ℕ} {rs : List (List Byte)} {rss : List (List (List Byte))}
      {a b c : Option SuspContinuationArea} : buildDirectoryRecords nodes d joliet a = .ok (rs, b) →
      Built nodes joliet ds rss b c → Built nodes joliet (d :: ds) (rs :: rss) a c

/-- Built with other addresses, they add the same to the continuation area. -/
theorem Built.alike (hs : SameShape nodes nodes') : ∀ {order : List ℕ}
    {rss rss' : List (List (List Byte))} {a a1 a' a1' : Option SuspContinuationArea},
    Built nodes joliet order rss a a1 → Built nodes' joliet order rss' a' a1' →
    ∃ more, a1 = grow a more ∧ a1' = grow a' more
  | [], _, _, _, _, _, _, .nil, .nil => ⟨[], (grow_nil _).symm, (grow_nil _).symm⟩
  | _ :: _, _, _, _, _, _, _, .cons hb h, .cons hb' h' => by
    obtain ⟨more, h1, h1'⟩ := h.alike hs h'
    obtain ⟨-, -, first, h0, h0'⟩ := buildDirectoryRecords_alike hs hb hb'
    rw [h0, grow_grow] at h1
    rw [h0', grow_grow] at h1'
    exact ⟨_, h1, h1'⟩

/-- All records are short. -/
theorem Built.short {rss : List (List (List Byte))} {a a1 : Option SuspContinuationArea}
    (h : Built nodes joliet order rss a a1) : ∀ rs ∈ rss, ∀ r ∈ rs, r.length ≤ 255 := by
  induction h with
  | nil => exact nofun
  | cons hb _ ih =>
    exact List.forall_mem_cons.mpr ⟨(buildDirectoryRecords_alike (.refl _) hb hb).short, ih⟩

theorem probeContinuations_ok : ∀ {order : List ℕ} {a a1 : Option SuspContinuationArea},
    probeContinuations nodes order a = .ok a1 → ∃ rss, Built nodes false order rss a a1
  | [], a, a1, h => by
    cases h
    exact ⟨[], .nil⟩
  | d :: order, a, a1, h => by
    rw [probeContinuations] at h
    cases hb : buildDirectoryRecords nodes d false a with
    | error e =>
      rw [hb] at h
      cases h
    | ok x =>
      obtain ⟨rs, b⟩ := x
      rw [hb] at h
      obtain ⟨rss, hrss⟩ := probeContinuations_ok h
      exact ⟨rs :: rss, .cons hb hrss⟩

/-! ### Sizes -/

/-- The directory has the size that its records have, whatever the addresses. -/
def Sized (nodes : List IsoNode) (joliet : Bool) (d : ℕ) : Prop :=
  ∀ nodes', SameShape nodes' nodes → ∀ a rs a1,
    buildDirectoryRecords nodes' d joliet a = .ok (rs, a1) →
    layoutLength rs = ((nodeAt nodes d).extent joliet).2

theorem Sized.congr {d : ℕ} (h : Sized nodes joliet d) (hs : SameShape nodes' nodes)
    (hsize : ((nodeAt nodes' d).extent joliet).2 = ((nodeAt nodes d).extent joliet).2) :
    Sized nodes' joliet d := fun ns hns a rs a1 hb => (h ns (hns.trans hs) a rs a1 hb).trans hsize.symm

/-- **The sizes of the directories.** -/
theorem sizeDirectories_ok : ∀ {order : List ℕ} {nodes : List IsoNode},
    sizeDirectories order nodes = .ok nodes' → order.Nodup → (∀ d ∈ order, d < nodes.length) →
    SameShape nodes' nodes ∧ (∀ d ∉ order, nodeAt nodes' d = nodeAt nodes d) ∧
      ∀ d ∈ order, ∀ joliet, Sized nodes' joliet d
  | [], nodes, h, _, _ => by
    cases h
    exact ⟨.refl _, fun _ _ => rfl, nofun⟩
  | d :: order, nodes, h, hnodup, hlt => by
    obtain ⟨hd, hnodup⟩ := List.nodup_cons.mp hnodup
    obtain ⟨hdlt, hlt⟩ := List.forall_mem_cons.mp hlt
    obtain ⟨⟨primary, a⟩, hprimary, h⟩ := bind_eq_ok.mp h
    obtain ⟨⟨joliet, b⟩, hjoliet, h⟩ := bind_eq_ok.mp h
    obtain ⟨-, h⟩ := guard_eq_ok.mp h
    obtain ⟨-, h⟩ := guard_eq_ok.mp h
    set nodes1 := nodes.modify d fun n =>
      { n with primarySize := layoutLength primary, jolietSize := layoutLength joliet } with hnodes1
    have hs1 : SameShape nodes1 nodes := .modify _ _ fun _ => rfl
    obtain ⟨hs, hkeep, hsized⟩ := sizeDirectories_ok h hnodup (hs1.length ▸ hlt)
    have hshape := hs.trans hs1
    have hat : nodeAt nodes' d = { nodeAt nodes d with
        primarySize := layoutLength primary, jolietSize := layoutLength joliet } := by
      rw [hkeep d hd, hnodes1, nodeAt_modify, if_pos ⟨rfl, hdlt⟩]
    refine ⟨hshape, fun e he => ?_, ?_⟩
    · obtain ⟨hne, he⟩ := List.ne_and_not_mem_of_not_mem_cons he
      rw [hkeep e he, hnodes1, nodeAt_modify, if_neg fun hc => hne hc.1.symm]
    · refine List.forall_mem_cons.mpr ⟨fun j ns hns c rs c1 hb => ?_, hsized⟩
      cases j with
      | false =>
        rw [hat]
        exact layoutLength_congr
          (buildDirectoryRecords_alike (hns.trans hshape) hb hprimary).lengths
      | true =>
        rw [hat]
        exact layoutLength_congr (buildDirectoryRecords_alike (hns.trans hshape) hb hjoliet).lengths

/-! ### Addresses -/

/-- The directories of a tree have addresses one behind the other, from `lba` up to `next`. -/
inductive Placed (nodes : List IsoNode) (joliet : Bool) : List ℕ → ℕ → ℕ → Prop where
  | nil {lba : ℕ} : Placed nodes joliet [] lba lba
  | cons {d : ℕ} {ds : List ℕ} {lba next : ℕ} : ((nodeAt nodes d).extent joliet).1 = lba →
      Placed nodes joliet ds (lba + sectors ((nodeAt nodes d).extent joliet).2) next →
      Placed nodes joliet (d :: ds) lba next

theorem Placed.congr {lba next : ℕ} (h : Placed nodes joliet order lba next)
    (heq : ∀ d ∈ order, (nodeAt nodes' d).extent joliet = (nodeAt nodes d).extent joliet) :
    Placed nodes' joliet order lba next := by
  induction h with
  | nil => exact .nil
  | cons hlba _ ih =>
    obtain ⟨hd, heq⟩ := List.forall_mem_cons.mp heq
    refine .cons (by rw [hd, hlba]) ?_
    rw [hd]
    exact ih heq

theorem advanceLba_ok {lba bytes next : ℕ} (h : advanceLba lba bytes = .ok next) :
    next = lba + sectors bytes := by
  unfold advanceLba at h
  split_ifs at h
  cases h
  rfl

/-- The node with an address. -/
def withLba (joliet : Bool) (lba : ℕ) (n : IsoNode) : IsoNode :=
  if joliet then { n with jolietLba := lba } else { n with primaryLba := lba }

theorem extent_withLba (joliet : Bool) (lba : ℕ) (n : IsoNode) :
    (withLba joliet lba n).extent joliet = (lba, (n.extent joliet).2) ∧
      (withLba joliet lba n).extent (!joliet) = n.extent (!joliet) := by
  cases joliet with
  | false => exact ⟨rfl, rfl⟩
  | true => exact ⟨rfl, rfl⟩

theorem bare_withLba (joliet : Bool) (lba : ℕ) (n : IsoNode) : bare (withLba joliet lba n) = bare n := by
  cases joliet with
  | false => rfl
  | true => rfl

/-- **The addresses of the directories.** -/
theorem placeDirectories_ok : ∀ {order : List ℕ} {nodes : List IsoNode} {lba next : ℕ},
    placeDirectories joliet order nodes lba = .ok (nodes', next) → order.Nodup →
    (∀ d ∈ order, d < nodes.length) →
    SameShape nodes' nodes ∧ (∀ d ∉ order, nodeAt nodes' d = nodeAt nodes d) ∧
      (∀ d, ((nodeAt nodes' d).extent joliet).2 = ((nodeAt nodes d).extent joliet).2 ∧
        (nodeAt nodes' d).extent (!joliet) = (nodeAt nodes d).extent (!joliet)) ∧
      Placed nodes' joliet order lba next
  | [], nodes, lba, next, h, _, _ => by
    cases h
    exact ⟨.refl _, fun _ _ => rfl, fun _ => ⟨rfl, rfl⟩, .nil⟩
  | d :: order, nodes, lba, next, h, hnodup, hlt => by
    obtain ⟨hd, hnodup⟩ := List.nodup_cons.mp hnodup
    obtain ⟨hdlt, hlt⟩ := List.forall_mem_cons.mp hlt
    obtain ⟨next1, hadvance, h⟩ := bind_eq_ok.mp h
    have h : placeDirectories joliet order (nodes.modify d (withLba joliet lba)) next1 =
      .ok (nodes', next) := h
    have hadvance : advanceLba lba ((nodeAt (nodes.modify d (withLba joliet lba)) d).extent joliet).2
      = .ok next1 := hadvance
    have hs1 : SameShape (nodes.modify d (withLba joliet lba)) nodes :=
      .modify _ _ (bare_withLba joliet lba)
    obtain ⟨hs, hkeep, hextents, hplaced⟩ := placeDirectories_ok h hnodup (hs1.length ▸ hlt)
    have hmod : ∀ e, nodeAt (nodes.modify d (withLba joliet lba)) e =
        if d = e ∧ e < nodes.length then withLba joliet lba (nodeAt nodes e) else nodeAt nodes e :=
      fun e => nodeAt_modify nodes d e _
    have hextent : ∀ e, ((nodeAt (nodes.modify d (withLba joliet lba)) e).extent joliet).2 =
        ((nodeAt nodes e).extent joliet).2 ∧
        (nodeAt (nodes.modify d (withLba joliet lba)) e).extent (!joliet) =
          (nodeAt nodes e).extent (!joliet) := by
      intro e
      obtain ⟨h1, h2⟩ := extent_withLba joliet lba (nodeAt nodes e)
      rw [hmod]
      split_ifs
      · exact ⟨by rw [h1], h2⟩
      · exact ⟨rfl, rfl⟩
    have hat : (nodeAt nodes' d).extent joliet = (lba, ((nodeAt nodes d).extent joliet).2) := by
      rw [hkeep d hd, hmod, if_pos ⟨rfl, hdlt⟩]
      exact (extent_withLba joliet lba _).1
    refine ⟨hs.trans hs1, fun e he => ?_, fun e => ?_, .cons (by rw [hat]) ?_⟩
    · obtain ⟨hne, he⟩ := List.ne_and_not_mem_of_not_mem_cons he
      rw [hkeep e he, hmod, if_neg fun hc => hne hc.1.symm]
    · exact ⟨(hextents e).1.trans (hextent e).1, (hextents e).2.trans (hextent e).2⟩
    · rw [hat]
      rwa [advanceLba_ok hadvance, (hextent d).1] at hplaced

end LibarchiveOxide.Iso.Planning

/-! # Volume descriptors as copies

A volume descriptor is a sector of zeros into which fields are copied, one after another
(`volumeDescriptor_ok`): what is read at a place is the last field that was copied there. -/

namespace LibarchiveOxide.Iso.Descriptors

open Core.Failure Core.Metadata Lib.Copies Lib.LittleEndian Lib.Result Lib.Slice Stream.Event
open Iso.Fields Iso.Names Iso.Records Iso.Writer Iso.Finish Iso.Shape

variable {v : VolumeDescriptor} {metadata : ArchiveMetadata} {root descriptor : List Byte}

@[simp] theorem length_bothEndianU32 (n : ℕ) : (bothEndianU32 n).length = 8 := length_bothEndian

@[simp] theorem length_bothEndianU16 (n : ℕ) : (bothEndianU16 n).length = 4 := length_bothEndian

@[simp] theorem length_oneEndian (bigEndian : Bool) (n value : ℕ) :
    (oneEndian bigEndian n value).length = n := by
  cases bigEndian with
  | false => exact length_leBytes n value
  | true => exact List.length_reverse.trans (length_leBytes n value)

/-- The identifier of a volume descriptor. -/
def header (descriptorType : ℕ) : List Byte := [UInt8.ofNat descriptorType] ++ bstr "CD001" ++ [1]

theorem length_header (descriptorType : ℕ) : (header descriptorType).length = 7 := by
  simp [header, bstr]

/-- The name of the volume. -/
def volumeNameOf (metadata : ArchiveMetadata) : List Byte :=
  (metadata.volumeName.map ArchivePath.raw).getD (bstr "LIBARCHIVE_OXIDE")

/-- A property that is copied if it is there. -/
def propertyCopies (metadata : ArchiveMetadata) (key : String) (i n : ℕ) : List (ℕ × List Byte) :=
  (volumeProperty metadata key).toList.map fun value => (i, value.take n)

/-- The texts. -/
def textCopies (joliet : Bool) (metadata : ArchiveMetadata) : List (ℕ × List Byte) :=
  if joliet then [(88, [0x25, 0x2f, 0x45]), (40, (jolietName (volumeNameOf metadata)).take 32)]
  else (8, List.replicate 64 (chr ' ')) :: propertyCopies metadata "system-id" 8 32 ++
    (40, (primaryName (volumeNameOf metadata)).take 32) ::
      propertyCopies metadata "application-id" 574 128

/-- The numbers and the record of the root directory. -/
def numberCopies (v : VolumeDescriptor) (root : List Byte) : List (ℕ × List Byte) :=
  [(80, bothEndianU32 v.totalSectors), (120, bothEndianU16 1), (124, bothEndianU16 1),
    (128, bothEndianU16 SECTOR), (132, bothEndianU32 v.pathTableSize),
    (140, oneEndian false 4 v.littlePathLba), (148, oneEndian true 4 v.bigPathLba), (156, root)]

/-- What comes last: the spaces of the primary descriptor, and the version of the structure. -/
def lastCopies (joliet : Bool) : List (ℕ × List Byte) :=
  (if joliet then [] else [(190, List.replicate 623 (chr ' '))]) ++ [(881, [1])]

/-- All that is copied. -/
def descriptorCopies (v : VolumeDescriptor) (metadata : ArchiveMetadata) (root : List Byte) :
    List (ℕ × List Byte) :=
  (0, header v.descriptorType) :: textCopies v.joliet metadata ++ numberCopies v root ++
    lastCopies v.joliet

theorem spliceAll_propertyCopies (d : List Byte) (key : String) (i n : ℕ) :
    spliceAll d (propertyCopies metadata key i n) =
      (volumeProperty metadata key).elim d (putAtMost d i n) := by
  unfold propertyCopies
  cases volumeProperty metadata key with
  | none => rfl
  | some value => rfl

theorem spliceAll_textCopies (joliet : Bool) (d : List Byte) :
    spliceAll d (textCopies joliet metadata) = putTexts joliet metadata d := by
  cases joliet with
  | true => rfl
  | false =>
    have hsplit : textCopies false metadata = [(8, List.replicate 64 (chr ' '))] ++
        propertyCopies metadata "system-id" 8 32 ++
        [(40, (primaryName (volumeNameOf metadata)).take 32)] ++
        propertyCopies metadata "application-id" 574 128 := by
      rw [List.singleton_append, List.append_assoc, List.singleton_append]
      rfl
    rw [hsplit, spliceAll_append, spliceAll_append, spliceAll_append, spliceAll_propertyCopies,
      spliceAll_propertyCopies]
    rfl

/-- The record of a root directory in a volume descriptor. -/
theorem rootRecord_ok {lba size : ℕ}
    (h : directoryRecord [0] lba size true RECORDING_TIME [] = .ok root) :
    root = recordBytes [0] lba size true RECORDING_TIME [] ∧ root.length = 34 := by
  refine ⟨?_, (directoryRecord_ok rfl h).1⟩
  obtain ⟨⟨r, a⟩, hr, rfl⟩ := map_eq_ok.mp h
  unfold continuedDirectoryRecord at hr
  obtain ⟨-, hr⟩ := guard_eq_ok.mp hr
  obtain ⟨x, hx, hr⟩ := bind_eq_ok.mp hr
  have hnil : ([] : List Byte).length ≤ 255 - systemUseStart [(0 : Byte)].length := Nat.zero_le _
  rw [recordSystemUse, if_pos hnil] at hx
  cases hx
  obtain ⟨-, hr⟩ := guard_eq_ok.mp hr
  obtain ⟨-, hr⟩ := guard_eq_ok.mp hr
  cases hr
  rfl

/-- **A volume descriptor** is a sector of zeros with what is copied. -/
theorem volumeDescriptor_ok (h : volumeDescriptor v metadata = .ok descriptor) :
    ∃ root, root = recordBytes [0] v.rootLba v.rootSize true RECORDING_TIME [] ∧ root.length = 34 ∧
      descriptor = spliceAll (List.replicate SECTOR 0) (descriptorCopies v metadata root) := by
  obtain ⟨-, h⟩ := guard_eq_ok.mp h
  obtain ⟨root, hroot, h⟩ := bind_eq_ok.mp h
  cases h
  obtain ⟨hbytes, hlength⟩ := rootRecord_ok hroot
  refine ⟨root, hbytes, hlength, ?_⟩
  have hsplit : descriptorCopies v metadata root = [(0, header v.descriptorType)] ++
      textCopies v.joliet metadata ++ numberCopies v root ++ lastCopies v.joliet := rfl
  rw [hsplit, spliceAll_append, spliceAll_append, spliceAll_append, spliceAll_textCopies]
  simp only [spliceAll, numberCopies, lastCopies, header, List.foldl_cons, List.foldl_nil,
    List.foldl_append]
  cases v.joliet with
  | false => simp only [Bool.false_eq_true, if_false, List.foldl_cons, List.foldl_nil]
  | true => simp only [if_true, List.foldl_nil]

theorem fit_propertyCopies {key : String} {i n m : ℕ} (h : i + n ≤ m) :
    Fit m (propertyCopies metadata key i n) := by
  intro c hc
  obtain ⟨value, -, rfl⟩ := List.mem_map.mp hc
  have := List.length_take_le n value
  exact (show i + (value.take n).length ≤ m by omega)

/-- Everything is copied into the sector. -/
theorem fit_descriptorCopies (hroot : root.length = 34) :
    Fit (List.replicate SECTOR (0 : Byte)).length (descriptorCopies v metadata root) := by
  have hs : SECTOR = 2048 := rfl
  rw [List.length_replicate]
  refine List.forall_mem_append.mpr ⟨List.forall_mem_append.mpr
    ⟨List.forall_mem_cons.mpr ⟨?_, ?_⟩, ?_⟩, ?_⟩
  · rw [length_header, hs]
    omega
  · unfold textCopies
    cases v.joliet with
    | true =>
      have := List.length_take_le 32 (jolietName (volumeNameOf metadata))
      simp only [if_true, List.forall_mem_cons, List.not_mem_nil, false_implies, implies_true,
        and_true, List.length_cons, List.length_nil, hs]
      omega
    | false =>
      have := List.length_take_le 32 (primaryName (volumeNameOf metadata))
      refine List.forall_mem_append.mpr ⟨List.forall_mem_cons.mpr ⟨?_, fit_propertyCopies (by decide)⟩,
        List.forall_mem_cons.mpr ⟨?_, fit_propertyCopies (by decide)⟩⟩
      · rw [List.length_replicate, hs]
        omega
      · dsimp only
        omega
  · simp [numberCopies, hroot, hs]
  · unfold lastCopies
    cases v.joliet with
    | true => simp [hs]
    | false => simp [hs, -List.reduceReplicate]

/-- A volume descriptor is one sector. -/
theorem length_volumeDescriptor (h : volumeDescriptor v metadata = .ok descriptor) :
    descriptor.length = SECTOR := by
  obtain ⟨root, -, hroot, rfl⟩ := volumeDescriptor_ok h
  exact (length_spliceAll (fit_descriptorCopies hroot)).trans List.length_replicate

/-! ### What is read -/

theorem clear_propertyCopies {key : String} {i n a b : ℕ} (h : b ≤ i ∨ i + n ≤ a) :
    Clear a b (propertyCopies metadata key i n) := by
  intro c hc
  obtain ⟨value, -, rfl⟩ := List.mem_map.mp hc
  have := List.length_take_le n value
  exact (show b ≤ i ∨ i + (value.take n).length ≤ a by omega)

theorem clear_textCopies {joliet : Bool} {a b : ℕ} (h : b ≤ 8) :
    Clear a b (textCopies joliet metadata) := by
  unfold textCopies
  cases joliet with
  | true =>
    exact List.forall_mem_cons.mpr ⟨.inl (h.trans (by decide)), List.forall_mem_cons.mpr
      ⟨.inl (h.trans (by decide : 8 ≤ 40)), nofun⟩⟩
  | false =>
    refine Clear.append (List.forall_mem_cons.mpr ⟨.inl h, clear_propertyCopies (.inl h)⟩) ?_
    exact List.forall_mem_cons.mpr ⟨.inl (h.trans (by decide : 8 ≤ 40)),
      clear_propertyCopies (.inl (h.trans (by decide)))⟩

theorem clear_numberCopies {a b : ℕ} (hroot : root.length = 34) (h : b ≤ 80 ∨ 190 ≤ a) :
    Clear a b (numberCopies v root) := by
  simp only [Clear, numberCopies, List.forall_mem_cons, length_bothEndianU32, length_bothEndianU16,
    length_oneEndian, hroot]
  refine ⟨?_, ?_, ?_, ?_, ?_, ?_, ?_, ?_, nofun⟩ <;> omega

theorem clear_lastCopies {joliet : Bool} {a b : ℕ} (h : b ≤ 190) : Clear a b (lastCopies joliet) := by
  have hversion : Clear a b [(881, [(1 : Byte)])] :=
    List.forall_mem_cons.mpr ⟨.inl (h.trans (by decide)), nofun⟩
  unfold lastCopies
  cases joliet with
  | true => exact hversion
  | false => exact Clear.append (List.forall_mem_cons.mpr ⟨.inl h, nofun⟩) hversion

/-- The identifier. -/
theorem window_header (h : volumeDescriptor v metadata = .ok descriptor) :
    window descriptor 0 7 = header v.descriptorType := by
  obtain ⟨root, -, hroot, rfl⟩ := volumeDescriptor_ok h
  have hlength := length_header v.descriptorType
  refine (@window_spliceAll _ _ [] _ _ _ _ _ (fit_descriptorCopies hroot) le_rfl (by omega) ?_).trans ?_
  · exact ((clear_textCopies (by decide)).append (clear_numberCopies hroot (by decide))).append
      (clear_lastCopies (by decide))
  · rw [← hlength]
    exact window_all _

/-- The size of a block. -/
theorem window_blockSize (h : volumeDescriptor v metadata = .ok descriptor) :
    window descriptor 128 132 = bothEndianU16 SECTOR := by
  obtain ⟨root, -, hroot, rfl⟩ := volumeDescriptor_ok h
  have hsplit : descriptorCopies v metadata root =
      ((0, header v.descriptorType) :: textCopies v.joliet metadata ++
        [(80, bothEndianU32 v.totalSectors), (120, bothEndianU16 1), (124, bothEndianU16 1)]) ++
      (128, bothEndianU16 SECTOR) :: ([(132, bothEndianU32 v.pathTableSize),
        (140, oneEndian false 4 v.littlePathLba), (148, oneEndian true 4 v.bigPathLba), (156, root)] ++
          lastCopies v.joliet) := by
    simp [descriptorCopies, numberCopies]
  have hfit := @fit_descriptorCopies v metadata _ hroot
  rw [hsplit] at hfit ⊢
  refine (window_spliceAll hfit le_rfl (by rw [length_bothEndianU16]) ?_).trans (window_all _)
  refine Clear.append ?_ (clear_lastCopies (by decide))
  simp only [Clear, List.forall_mem_cons]
  exact ⟨.inl (by decide), .inl (by decide), .inl (by decide), .inl (by decide), nofun⟩

/-- The record of the root directory. -/
theorem window_root (h : volumeDescriptor v metadata = .ok descriptor) :
    window descriptor 158 166 = bothEndianU32 v.rootLba ∧
      window descriptor 166 174 = bothEndianU32 v.rootSize := by
  obtain ⟨root, hbytes, hroot, rfl⟩ := volumeDescriptor_ok h
  have hsplit : descriptorCopies v metadata root =
      ((0, header v.descriptorType) :: textCopies v.joliet metadata ++
        [(80, bothEndianU32 v.totalSectors), (120, bothEndianU16 1), (124, bothEndianU16 1),
          (128, bothEndianU16 SECTOR), (132, bothEndianU32 v.pathTableSize),
          (140, oneEndian false 4 v.littlePathLba), (148, oneEndian true 4 v.bigPathLba)]) ++
      (156, root) :: lastCopies v.joliet := by
    simp [descriptorCopies, numberCopies]
  have hfit := @fit_descriptorCopies v metadata _ hroot
  rw [hsplit] at hfit ⊢
  constructor
  · refine (window_spliceAll hfit (by decide) (by omega) (clear_lastCopies (by decide))).trans ?_
    rw [hbytes]
    rfl
  · refine (window_spliceAll hfit (by decide) (by omega) (clear_lastCopies (by decide))).trans ?_
    rw [hbytes]
    rfl

/-- The spaces that come last: the application is not named. -/
theorem window_application (h : volumeDescriptor v metadata = .ok descriptor)
    (hv : v.joliet = false) : window descriptor 574 702 = List.replicate 128 (chr ' ') := by
  obtain ⟨root, -, hroot, rfl⟩ := volumeDescriptor_ok h
  have hsplit : descriptorCopies v metadata root =
      ((0, header v.descriptorType) :: textCopies v.joliet metadata ++ numberCopies v root) ++
      (190, List.replicate 623 (chr ' ')) :: [(881, [1])] := by
    rw [descriptorCopies, lastCopies, hv]
    rfl
  have hfit := @fit_descriptorCopies v metadata _ hroot
  rw [hsplit] at hfit ⊢
  refine (window_spliceAll hfit (by decide) (by rw [List.length_replicate]; decide)
    (List.forall_mem_cons.mpr ⟨.inl (by decide), nofun⟩)).trans ?_
  exact window_replicate _ (by decide)

/-- The name of the volume. -/
theorem window_volumeName (h : volumeDescriptor v metadata = .ok descriptor)
    (hv : v.joliet = false) {name : List Byte}
    (hname : (primaryName (volumeNameOf metadata)).take 32 = name) :
    window descriptor 40 72 = name ++ List.replicate (32 - name.length) (chr ' ') := by
  obtain ⟨root, -, hroot, rfl⟩ := volumeDescriptor_ok h
  have hsplit : descriptorCopies v metadata root = [(0, header v.descriptorType)] ++
      (8, List.replicate 64 (chr ' ')) :: (propertyCopies metadata "system-id" 8 32 ++
        (40, name) :: (propertyCopies metadata "application-id" 574 128 ++ numberCopies v root ++
          lastCopies false)) := by
    rw [descriptorCopies, hv, textCopies, hname]
    simp only [Bool.false_eq_true, if_false, List.append_assoc, List.cons_append, List.nil_append]
  have hlength : name.length ≤ 32 := hname ▸ List.length_take_le _ _
  have hfit := @fit_descriptorCopies v metadata _ hroot
  rw [hsplit] at hfit ⊢
  exact window_spliceAll_padded hfit (by decide) (by decide) (by omega)
    (clear_propertyCopies (.inr (by decide))) (((clear_propertyCopies (.inl (by decide))).append
      (clear_numberCopies hroot (by decide))).append (clear_lastCopies (by decide)))

/-- The name of the system. -/
theorem window_system (h : volumeDescriptor v metadata = .ok descriptor) (hv : v.joliet = false)
    {system : List Byte} (hsystem : ((volumeProperty metadata "system-id").getD []).take 32 = system) :
    window descriptor 8 40 = system ++ List.replicate (32 - system.length) (chr ' ') := by
  obtain ⟨root, -, hroot, rfl⟩ := volumeDescriptor_ok h
  have hfit := @fit_descriptorCopies v metadata _ hroot
  have hlength : system.length ≤ 32 := hsystem ▸ List.length_take_le _ _
  set after := (40, (primaryName (volumeNameOf metadata)).take 32) ::
    (propertyCopies metadata "application-id" 574 128 ++ numberCopies v root ++ lastCopies false)
  have hafter : Clear 8 40 after := List.forall_mem_cons.mpr ⟨.inl le_rfl,
    ((clear_propertyCopies (.inl (by decide))).append
      (clear_numberCopies hroot (by decide))).append (clear_lastCopies (by decide))⟩
  cases hproperty : volumeProperty metadata "system-id" with
  | none =>
    rw [hproperty] at hsystem
    have hsplit : descriptorCopies v metadata root = [(0, header v.descriptorType)] ++
        (8, List.replicate 64 (chr ' ')) :: after := by
      rw [descriptorCopies, hv, textCopies, propertyCopies, hproperty]
      simp only [Bool.false_eq_true, if_false, List.append_assoc, List.cons_append, List.nil_append,
        Option.toList_none, List.map_nil, after]
    rw [hsplit] at hfit ⊢
    refine (window_spliceAll hfit le_rfl (by rw [List.length_replicate]; decide) hafter).trans ?_
    rw [← hsystem]
    exact window_replicate _ (by decide)
  | some value =>
    rw [hproperty] at hsystem
    have hsplit : descriptorCopies v metadata root = [(0, header v.descriptorType)] ++
        (8, List.replicate 64 (chr ' ')) :: ([] ++ (8, system) :: after) := by
      rw [descriptorCopies, hv, textCopies, propertyCopies, hproperty, ← hsystem]
      simp only [Bool.false_eq_true, if_false, List.append_assoc, List.cons_append, List.nil_append,
        Option.toList_some, List.map_cons, List.map_nil, Option.getD_some, after]
    rw [hsplit] at hfit ⊢
    exact window_spliceAll_padded hfit le_rfl (by decide) (by omega) nofun hafter

end LibarchiveOxide.Iso.Descriptors
