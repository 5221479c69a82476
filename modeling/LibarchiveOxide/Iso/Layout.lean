import LibarchiveOxide.Iso.Failures
import LibarchiveOxide.Iso.Planning
import LibarchiveOxide.Iso.Records

/-! # The plan and what is written

Every region is written where the plan puts it, with the size that the plan gives it (`Emitted`): the
sizes do not depend on the addresses, and the cursor goes from one region to the next. Therefore
`finish` never finds that its passes do not agree (`finish_agrees`). -/

namespace LibarchiveOxide.Iso.Layout

open Core.Failure Core.Budget Core.Metadata Lib.Errors Lib.LittleEndian Lib.Result Lib.Slice
open Stream.Event Stream.Seekable Iso.Fields Iso.Names Iso.Records Iso.Writer Iso.Finish Iso.Session
open Iso.Shape Iso.Planning Iso.Extents Iso.Failures Iso.Descriptors

variable {nodes nodes' : List IsoNode} {order : List ℕ} {joliet : Bool} {o o' : Output}
  {low lba next : ℕ} {regions : List (ℕ × ℕ)} {contents : List (List Byte)}

/-! ### Regions -/

/-- Regions, given by a sector and a size, are written from `low` up to the sector `lba`. -/
structure Emitted (low : ℕ) (o : Output) (regions : List (ℕ × ℕ)) (contents : List (List Byte))
    (lba : ℕ) : Prop where
  sizes : List.Forall₂ (fun r c => c.length = r.2) regions contents
  written : o.Written low (List.zipWith (fun r c => (r.1 * SECTOR, c)) regions contents)
  position : o.position = lba * SECTOR
  low_le : low ≤ o.position

/-- The bytes of a region are at its sector. -/
def Holds (low : ℕ) (o : Output) (r : ℕ × ℕ) (c : List Byte) : Prop :=
  c.length = r.2 ∧ low ≤ r.1 * SECTOR ∧ r.1 * SECTOR + r.2 ≤ o.position ∧
    window o.bytes (r.1 * SECTOR) (r.1 * SECTOR + r.2) = c

/-- The regions do not overlap. -/
def Apart (regions : List (ℕ × ℕ)) : Prop :=
  regions.Pairwise fun r s => r.1 * SECTOR + r.2 ≤ s.1 * SECTOR

theorem Emitted.holds (h : Emitted low o regions contents lba) :
    List.Forall₂ (Holds low o) regions contents := by
  obtain ⟨hsizes, ⟨-, hpiece, -⟩, -, -⟩ := h
  induction hsizes with
  | nil => exact .nil
  | cons hr _ ih =>
    obtain ⟨⟨hlow, hend, hbytes⟩, hpiece⟩ := List.forall_mem_cons.mp hpiece
    rw [hr] at hend hbytes
    exact .cons ⟨hr, hlow, hend, hbytes⟩ (ih hpiece)

theorem Emitted.apart (h : Emitted low o regions contents lba) : Apart regions := by
  obtain ⟨hsizes, ⟨-, -, hapart⟩, -, -⟩ := h
  induction hsizes with
  | nil => exact .nil
  | @cons r c rs cs hr hsizes ih =>
    obtain ⟨hfirst, hapart⟩ := List.pairwise_cons.mp hapart
    refine List.pairwise_cons.mpr ⟨fun s hs => ?_, ih hapart⟩
    rw [hr] at hfirst
    obtain ⟨i, hi, rfl⟩ := List.getElem_of_mem hs
    have hi' : i < cs.length := hsizes.length_eq ▸ hi
    refine hfirst (rs[i].1 * SECTOR, cs[i]) (List.mem_of_getElem? (i := i) ?_)
    rw [List.getElem?_zipWith, List.getElem?_eq_getElem hi, List.getElem?_eq_getElem hi']

/-- One more piece at the cursor is one more region. -/
theorem Emitted.push (h : Emitted low o regions contents lba) {v : List Byte}
    (hw : o'.Written low (List.zipWith (fun r c => (r.1 * SECTOR, c)) regions contents ++
      [(lba * SECTOR, v)])) (hp : o'.position = (lba + sectors v.length) * SECTOR) :
    Emitted low o' (regions ++ [(lba, v.length)]) (contents ++ [v]) (lba + sectors v.length) := by
  refine ⟨List.rel_append h.sizes (.cons rfl .nil), ?_, hp, ?_⟩
  · rwa [List.zipWith_append h.sizes.length_eq]
  · have := h.low_le
    rw [h.position] at this
    rw [hp]
    exact this.trans (Nat.mul_le_mul_right _ (Nat.le_add_right _ _))

theorem position_writePaddedRegion {v : List Byte} (h : o.position = lba * SECTOR) :
    (writePaddedRegion o v).position = (lba + sectors v.length) * SECTOR := by
  have hs : SECTOR = 2048 := rfl
  rw [hs] at h
  simp only [writePaddedRegion, padOutput, Output.position_writeAll, List.length_replicate, h, sectors,
    hs]
  omega

theorem Emitted.region (h : Emitted low o regions contents lba) (v : List Byte) :
    Emitted low (writePaddedRegion o v) (regions ++ [(lba, v.length)]) (contents ++ [v])
      (lba + sectors v.length) := by
  refine h.push ?_ (position_writePaddedRegion h.position)
  have := h.written.push h.low_le v
  rw [h.position] at this
  exact this.fill _

/-- A region of whole sectors needs no padding. -/
theorem Emitted.extent (h : Emitted low o regions contents lba) {v : List Byte}
    (hv : v.length % SECTOR = 0) : Emitted low (o.writeAll v) (regions ++ [(lba, v.length)])
      (contents ++ [v]) (lba + sectors v.length) := by
  have hs : SECTOR = 2048 := rfl
  refine h.push ?_ ?_
  · have := h.written.push h.low_le v
    rwa [h.position] at this
  · rw [hs] at hv
    simp only [Output.position_writeAll, h.position, sectors, hs]
    omega

/-- A region without bytes is not written. -/
theorem Emitted.unlessEmpty (h : Emitted low o regions contents lba) (v : List Byte) :
    Emitted low (if v = [] then o else writePaddedRegion o v) (regions ++ [(lba, v.length)])
      (contents ++ [v]) (lba + sectors v.length) := by
  by_cases hv : v = []
  · rw [if_pos hv, hv]
    refine h.push ?_ h.position
    have := h.written.push h.low_le []
    rwa [h.position, Output.writeAll_nil h.written.inside] at this
  · rw [if_neg hv]
    exact h.region v

/-! ### Directories -/

/-- **The directories of a tree** are written where they were placed. -/
theorem emitDirectories_ok : ∀ {order : List ℕ} {o o' : Output} {lba next : ℕ}
    {a a1 : Option SuspContinuationArea} {regions : List (ℕ × ℕ)} {contents : List (List Byte)},
    emitDirectories nodes joliet order o a = .ok (o', a1) → Placed nodes joliet order lba next →
    (∀ d ∈ order, Sized nodes joliet d) → Emitted low o regions contents lba →
    ∃ rss, Built nodes joliet order rss a a1 ∧
      Emitted low o' (regions ++ order.map fun d => (nodeAt nodes d).extent joliet)
        (contents ++ rss.map layoutRecords) next
  | [], o, o', lba, next, a, a1, regions, contents, h, hp, _, he => by
    cases h
    cases hp
    refine ⟨[], .nil, ?_⟩
    rw [List.map_nil, List.map_nil, List.append_nil, List.append_nil]
    exact he
  | d :: order, o, o', lba, next, a, a1, regions, contents, h, hp, hsized, he => by
    obtain ⟨hd, hsized⟩ := List.forall_mem_cons.mp hsized
    rw [emitDirectories] at h
    cases hb : buildDirectoryRecords nodes d joliet a with
    | error e =>
      rw [hb] at h
      cases h
    | ok x =>
      obtain ⟨rs, b⟩ := x
      rw [hb] at h
      obtain ⟨hlength, -⟩ := length_layoutRecords (buildDirectoryRecords_alike (.refl _) hb hb).short
      have hsize : (layoutRecords rs).length = ((nodeAt nodes d).extent joliet).2 :=
        hlength.trans (hd nodes (.refl _) a rs b hb)
      cases hp with
      | cons hlba hp =>
        have hregion : ((nodeAt nodes d).extent joliet) = (lba, (layoutRecords rs).length) :=
          Prod.ext hlba hsize.symm
        rw [hregion] at hp
        have hmod : (layoutRecords rs).length % SECTOR = 0 := hlength ▸ layoutLength_mod rs
        obtain ⟨rss, hbuilt, hemitted⟩ := emitDirectories_ok h hp hsized (he.extent hmod)
        refine ⟨rs :: rss, .cons hb hbuilt, ?_⟩
        rw [List.map_cons, List.map_cons, hregion]
        simpa only [List.append_assoc, List.singleton_append] using hemitted

/-! ### Path tables -/

theorem length_pathTableRecord {bigEndian : Bool} {d : ℕ} {r : List Byte}
    (h : pathTableRecord nodes joliet bigEndian d = .ok r) :
    r.length = pathTableRecordLength (directoryIdentifier nodes d joliet).length := by
  unfold pathTableRecord at h
  dsimp only at h
  split_ifs at h with hlong heven
  · cases h
    simp only [pathTableRecordLength, List.length_append, List.length_cons, List.length_nil,
      length_oneEndian]
    rw [if_pos (by omega)]
  · cases h
    simp only [pathTableRecordLength, List.length_append, List.length_cons, List.length_nil,
      length_oneEndian]
    rw [if_neg (by omega)]

/-- A path table has the size that was planned. -/
theorem length_buildPathTable {bigEndian : Bool} {table : List Byte}
    (h : buildPathTable nodes order joliet bigEndian = .ok table) :
    table.length = pathTableSize nodes order joliet := by
  obtain ⟨rs, hrs, rfl⟩ := map_eq_ok.mp h
  have hall : ∀ {order : List ℕ} {rs : List (List Byte)},
      order.mapM (pathTableRecord nodes joliet bigEndian) = .ok rs →
      rs.flatten.length = pathTableSize nodes order joliet := by
    intro order
    induction order with
    | nil =>
      intro rs hrs
      cases hrs
      rfl
    | cons d order ih =>
      intro rs hrs
      rw [List.mapM_cons] at hrs
      obtain ⟨r, hr, hrs⟩ := bind_eq_ok.mp hrs
      obtain ⟨rest, hrest, hrs⟩ := bind_eq_ok.mp hrs
      cases hrs
      rw [List.flatten_cons, List.length_append, length_pathTableRecord hr, ih hrest]
      rfl
  exact hall hrs

theorem pathTableSize_congr (h : SameShape nodes nodes') :
    pathTableSize nodes order joliet = pathTableSize nodes' order joliet := by
  unfold pathTableSize
  simp only [h.directoryIdentifier]

theorem emitPathTables_ok (h : emitPathTables nodes order o = .ok o')
    (he : Emitted low o [] [] lba) : ∃ primaryL primaryM jolietL jolietM,
      buildPathTable nodes order false false = .ok primaryL ∧
      buildPathTable nodes order false true = .ok primaryM ∧
      buildPathTable nodes order true false = .ok jolietL ∧
      buildPathTable nodes order true true = .ok jolietM ∧
      ∃ a b c, a = lba + sectors (pathTableSize nodes order false) ∧
        b = a + sectors (pathTableSize nodes order false) ∧
        c = b + sectors (pathTableSize nodes order true) ∧
        Emitted low o' [(lba, pathTableSize nodes order false), (a, pathTableSize nodes order false),
            (b, pathTableSize nodes order true), (c, pathTableSize nodes order true)]
          [primaryL, primaryM, jolietL, jolietM] (c + sectors (pathTableSize nodes order true)) := by
  obtain ⟨primaryL, hpl, h⟩ := bind_eq_ok.mp h
  obtain ⟨primaryM, hpm, h⟩ := bind_eq_ok.mp h
  obtain ⟨jolietL, hjl, h⟩ := bind_eq_ok.mp h
  obtain ⟨jolietM, hjm, h⟩ := bind_eq_ok.mp h
  cases h
  have hall := (((he.region primaryL).region primaryM).region jolietL).region jolietM
  rw [length_buildPathTable hpl, length_buildPathTable hpm, length_buildPathTable hjl,
    length_buildPathTable hjm] at hall
  exact ⟨primaryL, primaryM, jolietL, jolietM, hpl, hpm, hjl, hjm, _, _, _, rfl, rfl, rfl, hall⟩

/-! ### The plan -/

/-- The directories of a plan are sized and placed, and the regions are one behind the other, from the
sector `lba` on. -/
structure Consistent (p : Planned) (lba : ℕ) : Prop where
  sized : ∀ joliet, ∀ d ∈ p.order, Sized p.layout.nodes joliet d
  primaryPath : pathTableSize p.layout.nodes p.order false = p.primaryPath
  jolietPath : pathTableSize p.layout.nodes p.order true = p.jolietPath
  area : ∃ nodes rss a, SameShape nodes p.layout.nodes ∧
    Built nodes false p.order rss (some { baseLba := 0 }) a ∧ (areaOf a).length = p.continuationSize
  primaryL : p.layout.primaryLPath = lba
  primaryM : p.layout.primaryMPath = p.layout.primaryLPath + sectors p.primaryPath
  jolietL : p.layout.jolietLPath = p.layout.primaryMPath + sectors p.primaryPath
  jolietM : p.layout.jolietMPath = p.layout.jolietLPath + sectors p.jolietPath
  primary : Placed p.layout.nodes false p.order (p.layout.jolietMPath + sectors p.jolietPath)
    p.layout.continuationLba
  joliet : Placed p.layout.nodes true p.order
    (p.layout.continuationLba + sectors p.continuationSize) p.layout.totalSectors

theorem plan_ok {w : IsoSeekWriter} {p : Planned} (h : plan w order nodes = .ok p)
    (hnodup : order.Nodup) (hlt : ∀ d ∈ order, d < nodes.length) :
    ∃ lba, w.output.position = lba * SECTOR ∧ Consistent p lba := by
  obtain ⟨u, -, h⟩ := bind_eq_ok.mp h
  obtain ⟨nodes1, hsizes, h⟩ := bind_eq_ok.mp h
  obtain ⟨area, harea, h⟩ := bind_eq_ok.mp h
  obtain ⟨u, -, h⟩ := bind_eq_ok.mp h
  obtain ⟨lba, hlba, h⟩ := bind_eq_ok.mp h
  obtain ⟨layout, hlayout, h⟩ := bind_eq_ok.mp h
  cases h
  obtain ⟨primaryM, h1, hlayout⟩ := bind_eq_ok.mp hlayout
  obtain ⟨jolietL, h2, hlayout⟩ := bind_eq_ok.mp hlayout
  obtain ⟨jolietM, h3, hlayout⟩ := bind_eq_ok.mp hlayout
  obtain ⟨directories, h4, hlayout⟩ := bind_eq_ok.mp hlayout
  obtain ⟨⟨nodes2, continuationLba⟩, hprimary, hlayout⟩ := bind_eq_ok.mp hlayout
  obtain ⟨joliet, h5, hlayout⟩ := bind_eq_ok.mp hlayout
  obtain ⟨⟨nodes3, total⟩, hjoliet, hlayout⟩ := bind_eq_ok.mp hlayout
  cases hlayout
  obtain ⟨hs1, -, hsized⟩ := sizeDirectories_ok hsizes hnodup hlt
  obtain ⟨hs2, -, hkeep2, hplaced2⟩ := placeDirectories_ok hprimary hnodup (hs1.length ▸ hlt)
  obtain ⟨hs3, -, hkeep3, hplaced3⟩ :=
    placeDirectories_ok hjoliet hnodup ((hs2.trans hs1).length ▸ hlt)
  obtain ⟨rss, hbuilt⟩ := probeContinuations_ok harea
  rw [advanceLba_ok h4] at hplaced2
  rw [advanceLba_ok h5] at hplaced3
  -- a tree that is placed keeps its own sizes and the other tree
  have hsame : ∀ joliet d, ((nodeAt nodes3 d).extent joliet).2 = ((nodeAt nodes1 d).extent joliet).2 := by
    intro j d
    cases j with
    | false => exact (congrArg Prod.snd (hkeep3 d).2).trans (hkeep2 d).1
    | true => exact (hkeep3 d).1.trans (congrArg Prod.snd (hkeep2 d).2)
  refine ⟨lba, ?_, ?_, pathTableSize_congr (hs3.trans hs2), pathTableSize_congr (hs3.trans hs2),
    ⟨nodes1, rss, area, (hs3.trans hs2).symm, hbuilt, rfl⟩, rfl, advanceLba_ok h1, advanceLba_ok h2,
    advanceLba_ok h3, hplaced2.congr fun d _ => (hkeep3 d).2, hplaced3⟩
  · unfold outputLba at hlba
    split_ifs at hlba with hmod
    cases hlba
    exact (Nat.div_mul_cancel (Nat.dvd_of_mod_eq_zero (not_not.mp hmod))).symm
  · exact fun j d hd => (hsized d hd j).congr (hs3.trans hs2) (hsame j d)

/-! ### What is written -/

/-- The regions of a plan, by sector and size: the path tables, the directories of the primary tree, the
continuation area, the directories of the Joliet tree. -/
def plannedRegions (p : Planned) : List (ℕ × ℕ) :=
  [(p.layout.primaryLPath, p.primaryPath), (p.layout.primaryMPath, p.primaryPath),
    (p.layout.jolietLPath, p.jolietPath), (p.layout.jolietMPath, p.jolietPath)] ++
  p.order.map (fun d => (nodeAt p.layout.nodes d).extent false) ++
  [(p.layout.continuationLba, p.continuationSize)] ++
  p.order.map fun d => (nodeAt p.layout.nodes d).extent true

/-- What the regions are made of. -/
structure Contents where
  primaryL : List Byte
  primaryM : List Byte
  jolietL : List Byte
  jolietM : List Byte
  primary : List (List (List Byte))
  continuation : List Byte
  joliet : List (List (List Byte))

/-- The bytes of the regions. -/
def Contents.bytes (c : Contents) : List (List Byte) :=
  [c.primaryL, c.primaryM, c.jolietL, c.jolietM] ++ c.primary.map layoutRecords ++
    [c.continuation] ++ c.joliet.map layoutRecords

/-- The contents are built from the nodes with the addresses of the plan. -/
structure Contents.Of (c : Contents) (p : Planned) : Prop where
  primaryL : buildPathTable p.layout.nodes p.order false false = .ok c.primaryL
  primaryM : buildPathTable p.layout.nodes p.order false true = .ok c.primaryM
  jolietL : buildPathTable p.layout.nodes p.order true false = .ok c.jolietL
  jolietM : buildPathTable p.layout.nodes p.order true true = .ok c.jolietM
  primary : ∃ area, Built p.layout.nodes false p.order c.primary
    (some { baseLba := p.layout.continuationLba }) area ∧ areaOf area = c.continuation
  joliet : ∃ area, Built p.layout.nodes true p.order c.joliet none area

/-- No record of a directory straddles a sector. -/
theorem Contents.Of.whole {c : Contents} {p : Planned} (h : c.Of p) :
    ∀ rs ∈ c.primary ++ c.joliet,
      Whole (layoutRecords rs) rs (recordPositions (rs.map List.length) 0) := by
  intro rs hrs
  obtain ⟨_, hprimary, -⟩ := h.primary
  obtain ⟨_, hjoliet⟩ := h.joliet
  rcases List.mem_append.mp hrs with hrs | hrs
  · exact (length_layoutRecords (hprimary.short rs hrs)).2
  · exact (length_layoutRecords (hjoliet.short rs hrs)).2

variable {p : Planned} {area : Option SuspContinuationArea}

/-- The continuation area is as long as was planned: its bytes do not depend on the addresses. -/
theorem Consistent.length_area (hp : Consistent p lba) {rss : List (List (List Byte))}
    (h : Built p.layout.nodes false p.order rss (some { baseLba := p.layout.continuationLba }) area) :
    (areaOf area).length = p.continuationSize := by
  obtain ⟨nodes, rss', a, hs, hbuilt, hsize⟩ := hp.area
  obtain ⟨more, ha, harea⟩ := hbuilt.alike hs h
  rw [← hsize, ha, harea]
  rfl

/-- The first half of the regions. -/
theorem emitPrimary_ok {o1 o2 : Output} (hp : Consistent p lba) (he : Emitted low o [] [] lba)
    (hpaths : emitPathTables p.layout.nodes p.order o = .ok o1)
    (hdirs : emitDirectories p.layout.nodes false p.order o1
      (some { baseLba := p.layout.continuationLba }) = .ok (o2, area)) :
    (areaOf area).length = p.continuationSize ∧
      ∀ o3, o3 = (if areaOf area = [] then o2 else writePaddedRegion o2 (areaOf area)) →
      ∀ o4 a4, emitDirectories p.layout.nodes true p.order o3 none = .ok (o4, a4) →
        o4.position = p.layout.totalSectors * SECTOR ∧ ∃ c : Contents, c.Of p ∧
          Emitted low o4 (plannedRegions p) c.bytes p.layout.totalSectors := by
  obtain ⟨primaryL, primaryM, jolietL, jolietM, hpl, hpm, hjl, hjm, a, b, c, ha, hb, hc, htables⟩ :=
    emitPathTables_ok hpaths he
  rw [hp.primaryPath] at ha hb htables
  rw [hp.jolietPath] at hc htables
  rw [← hp.primaryL, ← hp.primaryM] at ha
  rw [ha, ← hp.jolietL] at hb
  rw [hb, ← hp.jolietM] at hc
  rw [ha, hb, hc, ← hp.primaryL] at htables
  obtain ⟨primary, hprimary, hemitted⟩ := emitDirectories_ok hdirs hp.primary (hp.sized false) htables
  have harea := hp.length_area hprimary
  refine ⟨harea, fun o3 ho3 o4 a4 hj => ?_⟩
  have harea3 := hemitted.unlessEmpty (areaOf area)
  rw [harea, ← ho3] at harea3
  obtain ⟨joliet, hjoliet, hall⟩ := emitDirectories_ok hj hp.joliet (hp.sized true) harea3
  exact ⟨hall.position, ⟨primaryL, primaryM, jolietL, jolietM, primary, areaOf area, joliet⟩,
    ⟨hpl, hpm, hjl, hjm, ⟨area, hprimary, rfl⟩, ⟨a4, hjoliet⟩⟩, hall⟩

/-- **Writing the regions** never finds that the passes do not agree. -/
theorem emitRegions_raises (hp : Consistent p lba) (he : Emitted low o [] [] lba) :
    Raises Other (emitRegions p.layout p.order p.continuationSize o) := by
  refine raises_bind (emitPathTables_raises _ _) fun o1 hpaths => ?_
  refine raises_bind (emitDirectories_raises _ _ _ _) fun ⟨o2, area⟩ hdirs => ?_
  obtain ⟨harea, hrest⟩ := emitPrimary_ok hp he hpaths hdirs
  refine raises_guard (fun h => absurd harea h) fun _ => ?_
  refine raises_bind (emitDirectories_raises _ _ _ _) fun ⟨o4, a4⟩ hj => ?_
  exact raises_guard (fun h => absurd (hrest _ rfl o4 a4 hj).1 h) fun _ => raises_pure _

theorem emitRegions_ok (hp : Consistent p lba) (he : Emitted low o [] [] lba)
    (h : emitRegions p.layout p.order p.continuationSize o = .ok o') :
    ∃ c : Contents, c.Of p ∧ Emitted low o' (plannedRegions p) c.bytes p.layout.totalSectors := by
  obtain ⟨o1, hpaths, h⟩ := bind_eq_ok.mp h
  obtain ⟨⟨o2, area⟩, hdirs, h⟩ := bind_eq_ok.mp h
  obtain ⟨harea, hrest⟩ := emitPrimary_ok hp he hpaths hdirs
  obtain ⟨-, h⟩ := guard_eq_ok.mp h
  obtain ⟨⟨o4, a4⟩, hj, h⟩ := bind_eq_ok.mp h
  obtain ⟨-, h⟩ := guard_eq_ok.mp h
  cases h
  exact (hrest _ rfl _ _ hj).2

/-! ### Volume descriptors -/

/-- The volume descriptors are in the sectors that were left free. -/
structure Described (layout : Layout) (metadata : ArchiveMetadata) (primaryPath jolietPath : ℕ)
    (out : Output) (primary supplementary : List Byte) : Prop where
  buildsPrimary : volumeDescriptor ⟨1, false, (nodeAt layout.nodes 0).primaryLba,
    (nodeAt layout.nodes 0).primarySize, primaryPath, layout.primaryLPath, layout.primaryMPath,
    layout.totalSectors⟩ metadata = .ok primary
  buildsSupplementary : volumeDescriptor ⟨2, true, (nodeAt layout.nodes 0).jolietLba,
    (nodeAt layout.nodes 0).jolietSize, jolietPath, layout.jolietLPath, layout.jolietMPath,
    layout.totalSectors⟩ metadata = .ok supplementary
  first : window out.bytes (16 * SECTOR) (17 * SECTOR) = primary
  second : window out.bytes (17 * SECTOR) (18 * SECTOR) = supplementary
  third : window out.bytes (18 * SECTOR) (19 * SECTOR) = terminator

theorem emitDescriptors_ok {layout : Layout} {metadata : ArchiveMetadata}
    {primaryPath jolietPath : ℕ} {out : Output}
    (h : emitDescriptors layout metadata primaryPath jolietPath o = .ok out) (hin : o.Inside)
    (hlow : METADATA_START * SECTOR ≤ o.position) :
    (∃ primary supplementary,
      Described layout metadata primaryPath jolietPath out primary supplementary) ∧
    out.position = o.position ∧
    ∀ a b, METADATA_START * SECTOR ≤ a → window out.bytes a b = window o.bytes a b := by
  obtain ⟨primary, hprimary, h⟩ := bind_eq_ok.mp h
  obtain ⟨supplementary, hsupplementary, h⟩ := bind_eq_ok.mp h
  cases h
  have h1 := length_volumeDescriptor hprimary
  have h2 := length_volumeDescriptor hsupplementary
  have h3 : terminator.length = SECTOR := by
    rw [terminator, List.length_append, List.length_replicate]
    rfl
  have hs : SECTOR = 2048 := rfl
  have hm : METADATA_START = 19 := rfl
  have hd : DESCRIPTOR_START = 16 := rfl
  rw [hs] at h1 h2 h3
  rw [hs, hm] at hlow
  set start := o.seek (DESCRIPTOR_START * SECTOR) with hstart
  have hpos : start.position = 32768 := rfl
  have hinside : start.Inside := by
    rw [Output.Inside, hpos]
    have : o.position ≤ o.bytes.length := hin
    exact (show 32768 ≤ o.bytes.length by omega)
  have hall := ((((show Output.Written 0 _ [] from .nil hinside).push (Nat.zero_le _) primary).push
    (Nat.zero_le _) supplementary).push (Nat.zero_le _) terminator).piece
  simp only [List.nil_append, List.cons_append, List.forall_mem_cons, Output.position_writeAll, hpos,
    h1, h2, h3] at hall
  obtain ⟨⟨-, -, ha⟩, ⟨-, -, hb⟩, ⟨-, -, hc⟩, -⟩ := hall
  refine ⟨⟨primary, supplementary, hprimary, hsupplementary, ha, hb, hc⟩, rfl, fun a b hle => ?_⟩
  rw [hs, hm] at hle
  rw [Output.bytes_seek, Output.window_writeAll_of_disjoint hinside.writeAll.writeAll
      (by simp only [Output.position_writeAll, hpos, h1, h2, h3]; omega),
    Output.window_writeAll_of_disjoint hinside.writeAll
      (by simp only [Output.position_writeAll, hpos, h1, h2]; omega),
    Output.window_writeAll_of_disjoint hinside (by rw [hpos, h1]; omega), hstart, Output.bytes_seek]

/-! ### Finishing -/

/-- **The image agrees with the plan**: every region is where the plan says, with its size and with
contents that are built from the addresses of the plan, the regions do not overlap, no record straddles a
sector, and the volume descriptors name the regions. -/
structure Agrees (low : ℕ) (metadata : ArchiveMetadata) (p : Planned) (c : Contents) (out : Output) :
    Prop where
  contents : c.Of p
  holds : List.Forall₂ (Holds low out) (plannedRegions p) c.bytes
  apart : Apart (plannedRegions p)
  whole : ∀ rs ∈ c.primary ++ c.joliet,
    Whole (layoutRecords rs) rs (recordPositions (rs.map List.length) 0)
  described : ∃ primary supplementary,
    Described p.layout metadata p.primaryPath p.jolietPath out primary supplementary

variable {sizes : Sizes} {w : IsoSeekWriter}

theorem emitted_nil (hw : Sound w) (h : w.output.position = lba * SECTOR) :
    Emitted w.output.position w.output [] [] lba := ⟨.nil, .nil hw.inside, h, le_rfl⟩

/-- The second pass agrees with the first. -/
theorem emit_agrees {out : Output} (hw : Sound w) (hp : Consistent p lba)
    (hlba : w.output.position = lba * SECTOR) (h : emit w p = .ok out) :
    ∃ c, Agrees w.output.position w.archiveMetadata p c out := by
  obtain ⟨o, hregions, h⟩ := bind_eq_ok.mp h
  obtain ⟨c, hc, hemitted⟩ := emitRegions_ok hp (emitted_nil hw hlba) hregions
  obtain ⟨hdescribed, hposition, hkeep⟩ := emitDescriptors_ok h hemitted.written.inside
    (hw.low.trans hemitted.low_le)
  refine ⟨c, hc, hemitted.holds.imp fun r v hr => ?_, hemitted.apart, hc.whole, hdescribed⟩
  obtain ⟨hlength, hlow, hend, hbytes⟩ := hr
  exact ⟨hlength, hlow, hposition ▸ hend, (hkeep _ _ (hw.low.trans hlow)).trans hbytes⟩

theorem emit_raises (hw : Sound w) (hp : Consistent p lba)
    (hlba : w.output.position = lba * SECTOR) : Raises Other (emit w p) :=
  raises_bind (emitRegions_raises hp (emitted_nil hw hlba)) fun _ _ =>
    emitDescriptors_raises _ _ _ _ _

/-- How `finish` goes. -/
theorem finish_cases (hw : Sound w) : ∃ r, finish w = some r ∧ Raises Other r ∧
    ∀ out, r = .ok out → ∃ order nodes p lba, orderDirectories w.nodes = some (.ok (order, nodes)) ∧
      plan w order nodes = .ok p ∧ Consistent p lba ∧ w.output.position = lba * SECTOR ∧
      emit w p = .ok out := by
  unfold finish
  by_cases hpending : w.pending.isSome
  · rw [if_pos hpending]
    refine ⟨_, rfl, raises_error (other_of_context (by simp) (by simp)), nofun⟩
  · rw [if_neg hpending]
    obtain ⟨ordered, hordered, hok⟩ := orderDirectories_ok hw.tree
    rw [hordered]
    refine ⟨_, rfl, ?_, fun out h => ?_⟩
    · refine raises_bind (orderLoop_raises hordered) fun ⟨order, nodes⟩ ho => ?_
      obtain ⟨hs, hnodup, hlt⟩ := hok order nodes ho
      refine raises_bind (plan_raises _ _ _) fun p hplan => ?_
      obtain ⟨lba, hlba, hp⟩ := plan_ok hplan hnodup (hs.length ▸ hlt)
      exact emit_raises hw hp hlba
    · obtain ⟨⟨order, nodes⟩, ho, h⟩ := bind_eq_ok.mp h
      obtain ⟨p, hplan, h⟩ := bind_eq_ok.mp h
      obtain ⟨hs, hnodup, hlt⟩ := hok order nodes ho
      obtain ⟨lba, hlba, hp⟩ := plan_ok hplan hnodup (hs.length ▸ hlt)
      exact ⟨order, nodes, p, lba, congrArg some ho, hplan, hp, hlba, h⟩

end LibarchiveOxide.Iso.Layout
