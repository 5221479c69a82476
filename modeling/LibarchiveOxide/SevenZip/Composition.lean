import LibarchiveOxide.SevenZip.Order

/-! # A folder decodes as its graph says

The streams of a graph are related by its pack streams, bind pairs and coders (`Solves`). The stage
that is built (`built`) is the tree of the coders under the final output (`coderStage`), so it
computes that output from any solution (`output_coderStage`); and if all coders are in the tree, the
outputs of their trees are a solution (`solves_outputs`). -/

namespace LibarchiveOxide.SevenZip.Composition

open Core.Failure Lib.Result Stream.Event SevenZip.Wire SevenZip.Graph SevenZip.Archive
open SevenZip.FolderReader SevenZip.Wiring SevenZip.Order SevenZip.Trees

variable {σ : Type} {coding : Coding σ} {setup : Setup} {info : FolderInfo}

/-! ### The function of a graph -/

/-- The contents of the input streams and the output streams of a graph: a packed input has the pack
stream of its position, a bind pair joins its streams, and a coder makes its output from its inputs. -/
structure Solves (coding : Coding σ) (info : FolderInfo) (input output : ℕ → σ) : Prop where
  packed : ∀ k stream size, info.graph.packedIndices[k]? = some stream →
    info.packSizes[k]? = some size →
    input stream = coding.extent (info.packOffset + (info.packSizes.take k).sum) size
  bound : ∀ pair ∈ info.graph.bindPairs, input pair.inIndex = output pair.outIndex
  coder : ∀ index coder size, info.graph.coders[index]? = some coder →
    info.outputSizes[outBase info.graph index]? = some size →
    output (outBase info.graph index) = coding.run coder.method size
      ((List.range coder.numIn).map fun slot => input (info.graph.inBase index + slot))

/-- The tables of a folder fit its graph. -/
structure Placed (info : FolderInfo) : Prop where
  packs : info.packSizes.length = info.graph.packedIndices.length
  outputs : info.outputSizes.length = info.graph.totalOut
  fits : info.packOffset + info.packSpan ≤ u64Max

/-- What has been checked of a folder before its decoder is built. -/
structure Checked (info : FolderInfo) : Prop where
  wired : Wired info.graph
  shaped : ∀ coder ∈ info.graph.coders, Shaped coder
  placed : Placed info

/-! ### The tree of a coder -/

variable {index : ℕ}

/-- The method of a coder. -/
def methodAt (f : Folder) (index : ℕ) : CoderMethod :=
  (f.coders[index]?.map Coder.method).getD .unsupported

/-- The pack stream of an input. -/
def packStage (info : FolderInfo) (input : ℕ) : Stage :=
  let k := info.graph.packedIndices.idxOf input
  .source (info.packOffset + (info.packSizes.take k).sum) (info.packSizes.getD k 0)

/-- What feeds an input, given the stages of the coders. -/
def fedBy (info : FolderInfo) (stageOf : ℕ → Stage) (input : ℕ) : Stage :=
  match source info.graph input with
  | some producer => stageOf producer
  | none => packStage info input

/-- The tree under a coder, down to a depth. -/
def coderStage (info : FolderInfo) : ℕ → ℕ → Stage
  | 0, _ => .source 0 0
  | depth + 1, index =>
    let input := fun slot =>
      fedBy info (coderStage info depth) (info.graph.inBase index + slot)
    let size := info.outputSizes.getD index 0
    if methodAt info.graph index = .bcj2 then
      .bcj2 index size (input 0) (input 1) (input 2) (input 3)
    else .coder index (methodAt info.graph index) size (input 0)

/-- The coder at an index of a checked folder. -/
theorem Checked.coder_eq (hc : Checked info) (hlt : index < info.graph.coders.length) :
    ∃ coder, info.graph.coders[index]? = some coder ∧ coder.method = methodAt info.graph index ∧
      coder.method ≠ .unsupported ∧ coder.numOut = 1 ∧
      coder.numIn = if methodAt info.graph index = .bcj2 then 4 else 1 := by
  have hget := List.getElem?_eq_getElem hlt
  have hmethod : (info.graph.coders[index]).method = methodAt info.graph index := by
    rw [methodAt, hget]
    rfl
  obtain ⟨h1, h2, h3⟩ := hc.shaped _ (List.getElem_mem hlt)
  exact ⟨_, hget, hmethod, h1, h2, hmethod ▸ h3⟩

theorem Checked.numInAt_eq (hc : Checked info) (hlt : index < info.graph.coders.length) :
    numInAt info.graph index = if methodAt info.graph index = .bcj2 then 4 else 1 := by
  obtain ⟨coder, hget, -, -, -, hnum⟩ := hc.coder_eq hlt
  rw [numInAt_of_getElem hget, hnum]

theorem Checked.outputSize (hc : Checked info) (hlt : index < info.graph.coders.length) :
    info.outputSizes[outBase info.graph index]? = some (info.outputSizes.getD index 0) := by
  rw [outBase_eq hc.wired hlt.le]
  have hlen : index < info.outputSizes.length := by
    rw [hc.placed.outputs, totalOut_eq hc.wired]
    exact hlt
  rw [List.getD_eq_getElem?_getD, List.getElem?_eq_getElem hlen]
  rfl

/-- The inputs of a coder are fed by stages of coders or by pack streams. -/
theorem fedBy_congr {stageOf stageOf' : ℕ → Stage} {input : ℕ}
    (h : ∀ producer, source info.graph input = some producer →
      stageOf producer = stageOf' producer) :
    fedBy info stageOf input = fedBy info stageOf' input := by
  unfold fedBy
  cases hs : source info.graph input with
  | none => rfl
  | some producer => exact h producer hs

theorem coderStage_bcj2 {depth : ℕ} (h : methodAt info.graph index = .bcj2) :
    coderStage info (depth + 1) index =
      let input := fun slot =>
        fedBy info (coderStage info depth) (info.graph.inBase index + slot)
      .bcj2 index (info.outputSizes.getD index 0) (input 0) (input 1) (input 2) (input 3) :=
  if_pos h

theorem coderStage_single {depth : ℕ} (h : methodAt info.graph index ≠ .bcj2) :
    coderStage info (depth + 1) index =
      .coder index (methodAt info.graph index) (info.outputSizes.getD index 0)
        (fedBy info (coderStage info depth) (info.graph.inBase index)) := if_neg h

/-- A deeper tree is the same. -/
theorem coderStage_succ (hc : Checked info) : ∀ {depth index : ℕ},
    Grounded info.graph depth index → index < info.graph.coders.length →
    coderStage info (depth + 1) index = coderStage info depth index
  | 0, _, h, _ => h.elim
  | depth + 1, index, h, hlt => by
    have hnum := hc.numInAt_eq hlt
    have hfed : ∀ slot < numInAt info.graph index,
        fedBy info (coderStage info (depth + 1)) (info.graph.inBase index + slot) =
          fedBy info (coderStage info depth) (info.graph.inBase index + slot) :=
      fun slot hslot => fedBy_congr fun producer hs =>
        coderStage_succ hc (h slot hslot producer hs) (source_lt hc.wired hs)
    by_cases hb : methodAt info.graph index = .bcj2
    · rw [if_pos hb] at hnum
      rw [coderStage_bcj2 hb, coderStage_bcj2 hb]
      dsimp only
      rw [hfed 0 (by omega), hfed 1 (by omega), hfed 2 (by omega), hfed 3 (by omega)]
    · rw [if_neg hb] at hnum
      have h0 : fedBy info (coderStage info (depth + 1)) (info.graph.inBase index) =
          fedBy info (coderStage info depth) (info.graph.inBase index) := hfed 0 (by omega)
      rw [coderStage_single hb, coderStage_single hb, h0]

/-- The coders of the tree are those of its post-order. -/
theorem coders_coderStage (hc : Checked info) : ∀ {depth index : ℕ},
    Grounded info.graph depth index → index < info.graph.coders.length →
    (coderStage info depth index).coders = postOrder info.graph depth index
  | 0, _, h, _ => h.elim
  | depth + 1, index, h, hlt => by
    have hnum := hc.numInAt_eq hlt
    have hfed : ∀ slot < numInAt info.graph index,
        (fedBy info (coderStage info depth) (info.graph.inBase index + slot)).coders =
          (source info.graph (info.graph.inBase index + slot)).elim []
            (postOrder info.graph depth) := by
      intro slot hslot
      unfold fedBy
      cases hs : source info.graph (info.graph.inBase index + slot) with
      | none => rfl
      | some producer =>
        exact coders_coderStage hc (h slot hslot producer hs) (source_lt hc.wired hs)
    have hbranches : ∀ n, branches info.graph depth index (n + 1) =
        branches info.graph depth index n ++
          (source info.graph (info.graph.inBase index + n)).elim [] (postOrder info.graph depth) := by
      intro n
      rw [branches_succ]
      cases source info.graph (info.graph.inBase index + n) <;> rfl
    rw [postOrder_succ]
    by_cases hb : methodAt info.graph index = .bcj2
    · rw [if_pos hb] at hnum
      rw [coderStage_bcj2 hb, hnum]
      simp only [Stage.coders]
      rw [hfed 0 (by omega), hfed 1 (by omega), hfed 2 (by omega), hfed 3 (by omega)]
      simp only [hbranches, List.append_assoc]
      rfl
    · rw [if_neg hb] at hnum
      rw [coderStage_single hb, hnum]
      simp only [Stage.coders]
      have h0 := hfed 0 (by omega)
      rw [Nat.add_zero] at h0
      rw [h0, hbranches, Nat.add_zero]
      rfl

/-! ### What the tree computes -/

theorem packedIndices_nodup (hw : Wired info.graph) : info.graph.packedIndices.Nodup := by
  rw [List.nodup_iff_count_le_one]
  intro input
  by_cases hmem : input ∈ info.graph.packedIndices
  · have := hw.fed input (hw.packedRange input hmem)
    rw [List.count]
    omega
  · rw [List.count_eq_zero_of_not_mem hmem]
    exact Nat.zero_le _

/-- The pack stream of an input is that of its position. -/
theorem output_packStage (hc : Checked info) {k stream size : ℕ}
    (hk : info.graph.packedIndices[k]? = some stream) (hsize : info.packSizes[k]? = some size) :
    (packStage info stream).output coding =
      coding.extent (info.packOffset + (info.packSizes.take k).sum) size := by
  obtain ⟨hlt, hstream⟩ := List.getElem?_eq_some_iff.mp hk
  have hidx : info.graph.packedIndices.idxOf stream = k := by
    rw [← hstream]
    exact (packedIndices_nodup hc.wired).idxOf_getElem k hlt
  unfold packStage
  dsimp only
  rw [hidx, List.getD_eq_getElem?_getD, hsize]
  rfl

theorem exists_pack (hc : Checked info) {stream : ℕ} (hmem : stream ∈ info.graph.packedIndices) :
    ∃ k size : ℕ, info.graph.packedIndices[k]? = some stream ∧ info.packSizes[k]? = some size := by
  obtain ⟨k, hk, rfl⟩ := List.getElem_of_mem hmem
  have hk' : k < info.packSizes.length := by
    rw [hc.placed.packs]
    exact hk
  exact ⟨k, _, List.getElem?_eq_getElem hk, List.getElem?_eq_getElem hk'⟩

theorem output_fedBy (hc : Checked info) {input output : ℕ → σ}
    (hs : Solves coding info input output) {stageOf : ℕ → Stage} {stream : ℕ}
    (hlt : stream < info.graph.totalIn)
    (h : ∀ producer, source info.graph stream = some producer →
      (stageOf producer).output coding = output producer) :
    (fedBy info stageOf stream).output coding = input stream := by
  unfold fedBy
  cases hsource : source info.graph stream with
  | some producer =>
    exact (h producer hsource).trans (hs.bound _ (mem_of_source hsource)).symm
  | none =>
    obtain ⟨k, size, hk, hsize⟩ := exists_pack hc (packed_of_source_none hc.wired hlt hsource)
    rw [hs.packed k stream size hk hsize]
    exact output_packStage hc hk hsize

/-- **The tree under a coder computes the coder's output.** -/
theorem output_coderStage (hc : Checked info) {input output : ℕ → σ}
    (hs : Solves coding info input output) : ∀ {depth index : ℕ},
    Grounded info.graph depth index → index < info.graph.coders.length →
    (coderStage info depth index).output coding = output index
  | 0, _, h, _ => h.elim
  | depth + 1, index, h, hlt => by
    have hnum := hc.numInAt_eq hlt
    obtain ⟨coder, hget, hmethod, -, -, hnumIn⟩ := hc.coder_eq hlt
    have hout := hs.coder index coder _ hget (hc.outputSize hlt)
    rw [outBase_eq hc.wired hlt.le, hmethod, hnumIn] at hout
    have hfed : ∀ slot < numInAt info.graph index,
        (fedBy info (coderStage info depth) (info.graph.inBase index + slot)).output coding =
          input (info.graph.inBase index + slot) := fun slot hslot =>
      output_fedBy hc hs (inBase_add_lt hslot) fun producer hp =>
        output_coderStage hc hs (h slot hslot producer hp) (source_lt hc.wired hp)
    by_cases hb : methodAt info.graph index = .bcj2
    · rw [if_pos hb] at hnum hout
      rw [coderStage_bcj2 hb, hout, hb]
      simp only [Stage.output]
      rw [hfed 0 (by omega), hfed 1 (by omega), hfed 2 (by omega), hfed 3 (by omega)]
      rfl
    · rw [if_neg hb] at hnum hout
      have h0 := hfed 0 (by omega)
      rw [coderStage_single hb, hout]
      simp only [Stage.output]
      rw [Nat.add_zero] at h0
      rw [h0]
      rfl

/-- **The outputs of the trees of all coders are a solution.** -/
theorem solves_outputs (hc : Checked info) (coding : Coding σ)
    (hall : ∀ index < info.graph.coders.length,
      Grounded info.graph (info.graph.coders.length + 1) index) :
    let stageOf := coderStage info (info.graph.coders.length + 1)
    Solves coding info (fun stream => (fedBy info stageOf stream).output coding)
      fun index => (stageOf index).output coding := by
  intro stageOf
  refine ⟨fun k stream size hk hsize => ?_, fun pair hmem => ?_, ?_⟩
  · have hmem : stream ∈ info.graph.packedIndices := List.mem_of_getElem? hk
    rw [fedBy, source_none_of_packed hc.wired hmem]
    exact output_packStage hc hk hsize
  · rw [fedBy, source_of_mem hc.wired hmem]
  · intro index coder size hget hsize
    have hlt := (List.getElem?_eq_some_iff.mp hget).1
    rw [hc.outputSize hlt] at hsize
    cases hsize
    obtain ⟨coder', hget', hmethod, -, -, hnumIn⟩ := hc.coder_eq hlt
    rw [hget] at hget'
    cases hget'
    have hfed : ∀ slot < numInAt info.graph index,
        fedBy info (coderStage info info.graph.coders.length) (info.graph.inBase index + slot) =
          fedBy info stageOf (info.graph.inBase index + slot) := fun slot hslot =>
      fedBy_congr fun producer hp =>
        (coderStage_succ hc (hall index hlt slot hslot producer hp) (source_lt hc.wired hp)).symm
    have hnum := hc.numInAt_eq hlt
    rw [outBase_eq hc.wired hlt.le, hmethod, hnumIn]
    by_cases hb : methodAt info.graph index = .bcj2
    · rw [if_pos hb] at hnum ⊢
      rw [show stageOf index = _ from coderStage_bcj2 hb, hb]
      simp only [Stage.output]
      rw [hfed 0 (by omega), hfed 1 (by omega), hfed 2 (by omega), hfed 3 (by omega)]
      rfl
    · rw [if_neg hb] at hnum ⊢
      have h0 := hfed 0 (by omega)
      rw [show stageOf index = _ from coderStage_single hb]
      simp only [Stage.output]
      rw [Nat.add_zero] at h0
      rw [h0]
      rfl

end LibarchiveOxide.SevenZip.Composition
