import LibarchiveOxide.SevenZip.Composition

/-! # The stage that is built

Both loops of `build_folder_reader` build the tree under the final output, unless the set-up of a
coder fails (`built`). The linear loop does not look at the bind pairs and does not count the coders:
it builds what the graph says if and only if no coder lies on a cycle (`computesGraph_iff`). -/

namespace LibarchiveOxide.SevenZip.Built

open Core.Failure Lib.Result Stream.Event SevenZip.Wire SevenZip.Graph SevenZip.Archive
open SevenZip.FolderReader SevenZip.Wiring SevenZip.Order SevenZip.Trees SevenZip.Composition

variable {setup : Setup} {info : FolderInfo}

/-- The error is one of the memory check or of the set-up of a coder. -/
def Reports (setup : Setup) (e : StreamError) : Prop :=
  (∃ info, setup.memory info = .error e) ∨
    ∃ method size inner, setup.reader method size inner = .error e

/-- **The decoder of a folder computes its graph**: unless a set-up fails, it has every coder once,
and it makes from the pack streams what the only solution of the graph has as the final output. -/
def ComputesGraph (info : FolderInfo) : Prop := ∀ setup : Setup,
  (∃ e, buildFolderReader setup info = .error e ∧ Reports setup e) ∨
  ∃ stage final, buildFolderReader setup info = .ok stage ∧
    info.graph.finalOutIndex = .ok final ∧
    stage.coders.Perm (List.range info.graph.coders.length) ∧
    ∀ (σ : Type) (coding : Coding σ), (∃ input output, Solves coding info input output) ∧
      ∀ input output, Solves coding info input output → stage.output coding = output final

/-! ### Building -/

variable {index : ℕ}

/-- The result is the stage, or an error of the set-up. -/
def Builds (setup : Setup) (result : Except StreamError Stage) (stage : Stage) : Prop :=
  result = .ok stage ∨ ∃ e, result = .error e ∧ Reports setup e

theorem Builds.ok (stage : Stage) : Builds setup (.ok stage) stage := .inl rfl

theorem Builds.bind {result : Except StreamError Stage} {next : Stage → Except StreamError Stage}
    {stage stage' : Stage} (h : Builds setup result stage) (hnext : Builds setup (next stage) stage') :
    Builds setup (result >>= next) stage' := by
  rcases h with rfl | ⟨e, rfl, he⟩
  · exact hnext
  · exact .inr ⟨e, rfl, he⟩

theorem wrapAll_append (xs ys : List ℕ) (stage : Stage) :
    wrapAll setup info (xs ++ ys) stage =
      wrapAll setup info xs stage >>= wrapAll setup info ys := by
  induction xs generalizing stage with
  | nil => rfl
  | cons x xs ih =>
    simp only [List.cons_append, wrapAll, bind_assoc, ih]

/-- A coder with one input is wrapped around a stage. -/
theorem wrapCoder_builds {size : ℕ} {method : CoderMethod} {inner : Stage}
    (hsupported : method ≠ .unsupported) (hb : method ≠ .bcj2) :
    Builds setup (wrapCoder setup index method size inner) (.coder index method size inner) := by
  have hgen : Builds setup (do
      setup.reader method size inner
      .ok (.coder index method size inner)) (.coder index method size inner) := by
    cases h : setup.reader method size inner with
    | ok u => exact .inl rfl
    | error e => exact .inr ⟨e, rfl, .inr ⟨method, size, inner, h⟩⟩
  cases method with
  | bcj2 => exact absurd rfl hb
  | unsupported => exact absurd rfl hsupported
  | lzma2 _ => exact hgen
  | lzma _ => exact hgen
  | ppmd7 _ _ => exact hgen
  | filter _ => exact hgen
  | aes _ => exact hgen

theorem wrapAll_single (hc : Checked info) (hlt : index < info.graph.coders.length)
    (hb : methodAt info.graph index ≠ .bcj2) (inner : Stage) :
    Builds setup (wrapAll setup info [index] inner)
      (.coder index (methodAt info.graph index) (info.outputSizes.getD index 0) inner) := by
  obtain ⟨coder, hget, hmethod, hsupported, -, -⟩ := hc.coder_eq hlt
  have hwrap : wrapAll setup info [index] inner =
      wrapCoder setup index coder.method (info.outputSizes.getD index 0) inner >>=
        fun stage => .ok stage := by
    rw [wrapAll, coderAt, hget, hc.outputSize hlt]
    rfl
  rw [hwrap, hmethod]
  exact (wrapCoder_builds (hmethod ▸ hsupported) hb).bind (.ok _)

/-! ### The linear chain -/

theorem packStage_single (hc : Checked info) {input : ℕ}
    (hone : info.graph.packedIndices.length = 1) (hmem : input ∈ info.graph.packedIndices) :
    packStage info input = .source info.packOffset info.packSpan := by
  obtain ⟨x, hx⟩ := List.length_eq_one_iff.mp hone
  obtain ⟨size, hsize⟩ := List.length_eq_one_iff.mp (hc.placed.packs.trans hone)
  rw [hx] at hmem
  obtain rfl := List.mem_singleton.mp hmem
  rw [packStage, FolderInfo.packSpan, hx, hsize]
  simp

/-- The loop over the decode order of a chain builds the tree. -/
theorem linear_builds (hc : Checked info) (hone : info.graph.packedIndices.length = 1)
    (hno : ∀ index < info.graph.coders.length, methodAt info.graph index ≠ .bcj2) :
    ∀ {depth index : ℕ}, Grounded info.graph depth index → index < info.graph.coders.length →
      Builds setup (wrapAll setup info (postOrder info.graph depth index)
        (.source info.packOffset info.packSpan)) (coderStage info depth index)
  | 0, _, h, _ => h.elim
  | depth + 1, index, h, hlt => by
    have hb := hno index hlt
    have hnum := hc.numInAt_eq hlt
    rw [if_neg hb] at hnum
    have hslot : 0 < numInAt info.graph index := by omega
    rw [postOrder_succ, hnum, wrapAll_append, coderStage_single hb]
    refine Builds.bind ?_ (wrapAll_single hc hlt hb _)
    rw [branches_succ, Nat.add_zero]
    cases hs : source info.graph (info.graph.inBase index) with
    | none =>
      have hmem : info.graph.inBase index ∈ info.graph.packedIndices :=
        packed_of_source_none hc.wired (inBase_add_lt hslot) hs
      rw [fedBy, hs]
      dsimp only
      rw [packStage_single hc hone hmem]
      exact .ok _
    | some producer =>
      rw [fedBy, hs]
      exact linear_builds hc hone hno (h 0 hslot producer hs) (source_lt hc.wired hs)

/-! ### The junction -/

/-- The packed extents are found by their inputs. -/
theorem packExtents_eq : ∀ {start : ℕ} {inputs sizes : List ℕ}, sizes.length = inputs.length →
    start + sizes.sum ≤ u64Max → ∃ extents, packExtents start inputs sizes = .ok extents ∧
      ∀ input, (extents.find? fun extent => extent.1 == input) =
        if input ∈ inputs then
          some (input, start + (sizes.take (inputs.idxOf input)).sum,
            sizes.getD (inputs.idxOf input) 0)
        else none
  | start, [], [], _, _ => ⟨[], rfl, fun _ => rfl⟩
  | start, input :: inputs, size :: sizes, hlen, hle => by
    rw [List.sum_cons] at hle
    obtain ⟨extents, hext, hfind⟩ := packExtents_eq (Nat.succ_inj.mp hlen)
      (show start + size + sizes.sum ≤ u64Max by omega)
    refine ⟨(input, start, size) :: extents, ?_, fun x => ?_⟩
    · rw [packExtents, checkedAdd_of_le (show start + size ≤ u64Max by omega)]
      exact bind_eq_ok.mpr ⟨_, rfl, bind_eq_ok.mpr ⟨_, hext, rfl⟩⟩
    · by_cases hx : input = x
      · subst hx
        simp
      · rw [List.find?_cons_of_neg (by simpa using hx), hfind x]
        have hidx : (input :: inputs).idxOf x = inputs.idxOf x + 1 := List.idxOf_cons_ne _ hx
        have hmem : x ∈ input :: inputs ↔ x ∈ inputs := by simp [Ne.symm hx]
        rw [hidx]
        by_cases hin : x ∈ inputs
        · rw [if_pos hin, if_pos (hmem.mpr hin), List.take_succ_cons, List.sum_cons, Nat.add_assoc]
          rfl
        · rw [if_neg hin, if_neg (hmem.not.mpr hin)]

/-- The recursion of `build_bcj2_input` builds what feeds the input. -/
theorem input_builds (hc : Checked info) {extents : List (ℕ × ℕ × ℕ)}
    (hext : packExtents info.packOffset info.graph.packedIndices info.packSizes = .ok extents) :
    ∀ {depth left input : ℕ}, depth < left → input < info.graph.totalIn →
      (∀ producer, source info.graph input = some producer → Grounded info.graph depth producer ∧
        ∀ x ∈ postOrder info.graph depth producer, methodAt info.graph x ≠ .bcj2) →
      Builds setup (buildBcj2Input setup info extents left input)
        (fedBy info (coderStage info depth) input)
  | depth, 0, _, hlt, _, _ => absurd hlt (Nat.not_lt_zero _)
  | depth, left + 1, input, hlt, hin, h => by
    obtain ⟨extents', hext', hfind⟩ := packExtents_eq hc.placed.packs hc.placed.fits
    rw [hext] at hext'
    cases hext'
    unfold buildBcj2Input
    rw [hfind input]
    cases hs : source info.graph input with
    | none =>
      have hmem := packed_of_source_none hc.wired hin hs
      rw [if_pos hmem, fedBy, hs]
      exact .ok _
    | some producer =>
      have hnot : input ∉ info.graph.packedIndices := fun hmem => by
        rw [source_none_of_packed hc.wired hmem] at hs
        cases hs
      obtain ⟨hground, hno⟩ := h producer hs
      cases depth with
      | zero => exact hground.elim
      | succ depth =>
        obtain ⟨pair, hpair, hout⟩ := Option.map_eq_some_iff.mp hs
        have hp := source_lt hc.wired hs
        have hb := hno producer (mem_self_of_grounded hground)
        obtain ⟨coder, hget, hmethod, hsupported, hnumOut, hnumIn⟩ := hc.coder_eq hp
        rw [if_neg hb] at hnumIn
        have hnum := hc.numInAt_eq hp
        rw [if_neg hb] at hnum
        have hslot : 0 < numInAt info.graph producer := by omega
        rw [if_neg hnot, hpair]
        dsimp only [okOr]
        rw [ok_bind, hout, coderOfOut_eq hc.wired hp]
        dsimp only
        rw [ok_bind, coderAt, hget]
        dsimp only [okOr]
        rw [ok_bind, if_neg (by rw [hnumIn, hnumOut, hmethod]; simp [hb]), hc.outputSize hp]
        rw [fedBy, hs]
        dsimp only
        rw [coderStage_single hb]
        refine Builds.bind (input_builds hc hext (Nat.lt_of_succ_lt_succ hlt)
          (inBase_add_lt hslot) fun p hsource => ⟨hground 0 hslot p hsource, fun x hx => ?_⟩) ?_
        · exact hno x (mem_postOrder_succ.mpr (.inl (mem_branches.mpr ⟨0, hslot, p, hsource, hx⟩)))
        · rw [← hmethod]
          exact wrapCoder_builds hsupported (hmethod ▸ hb)

theorem isBcj2_iff {f : Folder} : isBcj2 f index = true ↔ methodAt f index = .bcj2 := by
  unfold isBcj2 methodAt
  cases f.coders[index]? with
  | none => simp
  | some coder => simp

/-- The four inputs of the junction are built. -/
theorem junction_builds (hc : Checked info) {depth : ℕ} (hb : methodAt info.graph index = .bcj2)
    (hlt : index < info.graph.coders.length) (hground : Grounded info.graph (depth + 1) index)
    (hdepth : depth ≤ info.graph.coders.length)
    (hno : ∀ x ∈ branches info.graph depth index 4, methodAt info.graph x ≠ .bcj2) :
    Builds setup (buildJunction setup info index) (coderStage info (depth + 1) index) := by
  obtain ⟨coder, hget, hmethod, -, hnumOut, hnumIn⟩ := hc.coder_eq hlt
  have hnum := hc.numInAt_eq hlt
  rw [if_pos hb] at hnumIn hnum
  obtain ⟨extents, hext, -⟩ := packExtents_eq hc.placed.packs hc.placed.fits
  have hinput : ∀ slot < 4, Builds setup
      (buildBcj2Input setup info extents (info.graph.coders.length + 1)
        (info.graph.inBase index + slot))
      (fedBy info (coderStage info depth) (info.graph.inBase index + slot)) := by
    intro slot hslot
    have hslot' : slot < numInAt info.graph index := by omega
    refine input_builds hc hext (by omega) (inBase_add_lt hslot') fun producer hs =>
      ⟨hground slot hslot' producer hs, fun x hx => ?_⟩
    exact hno x (mem_branches.mpr ⟨slot, hslot, producer, hs, hx⟩)
  rw [coderStage_bcj2 hb]
  unfold buildJunction
  rw [coderAt, hget]
  dsimp only [okOr]
  rw [ok_bind, if_neg (by rw [hnumIn, hnumOut]; simp), hext, ok_bind]
  refine (hinput 0 (by omega)).bind ((hinput 1 (by omega)).bind ((hinput 2 (by omega)).bind
    ((hinput 3 (by omega)).bind ?_)))
  rw [hc.outputSize hlt]
  exact .ok _

/-- The order goes through the junction: first its branches, then the coders wrapped around it. -/
theorem tail_builds (hc : Checked info) {junction : ℕ}
    (hone : ∀ x < info.graph.coders.length, methodAt info.graph x = .bcj2 → x = junction) :
    ∀ {depth index : ℕ}, Grounded info.graph depth index → index < info.graph.coders.length →
      junction ∈ postOrder info.graph depth index →
      ∃ depth' tail, depth' < depth ∧ Grounded info.graph (depth' + 1) junction ∧
        postOrder info.graph depth index =
          postOrder info.graph (depth' + 1) junction ++ tail ∧
        Builds setup (wrapAll setup info tail (coderStage info (depth' + 1) junction))
          (coderStage info depth index)
  | 0, _, h, _, _ => h.elim
  | depth + 1, index, h, hlt, hmem => by
    by_cases heq : index = junction
    · subst heq
      exact ⟨depth, [], Nat.lt_succ_self _, h, (List.append_nil _).symm, .ok _⟩
    · have hb : methodAt info.graph index ≠ .bcj2 := fun hb => heq (hone index hlt hb)
      have hnum := hc.numInAt_eq hlt
      rw [if_neg hb] at hnum
      have hslot : 0 < numInAt info.graph index := by omega
      have hbranch := (mem_postOrder_succ.mp hmem).resolve_right (Ne.symm heq)
      obtain ⟨slot, hslot', producer, hs, hx⟩ := mem_branches.mp hbranch
      obtain rfl : slot = 0 := by omega
      obtain ⟨depth', tail, hdepth, hground, horder, hbuilds⟩ :=
        tail_builds hc hone (h 0 hslot producer hs) (source_lt hc.wired hs) hx
      refine ⟨depth', tail ++ [index], by omega, hground, ?_, ?_⟩
      · rw [postOrder_succ, hnum, branches_succ, hs, ← List.append_assoc, ← horder]
        rfl
      · rw [wrapAll_append, coderStage_single hb]
        rw [Nat.add_zero] at hs
        refine Builds.bind ?_ (wrapAll_single hc hlt hb _)
        rw [fedBy, hs]
        exact hbuilds

/-- `build_bcj2_folder` builds the tree. -/
theorem bcj2_builds (hc : Checked info) {junction final : ℕ}
    (hone : ∀ x < info.graph.coders.length, methodAt info.graph x = .bcj2 → x = junction)
    (hb : methodAt info.graph junction = .bcj2)
    (horder : info.decodeOrder =
      postOrder info.graph (info.graph.coders.length + 1) final)
    (hground : Grounded info.graph (info.graph.coders.length + 1) final)
    (hlt : final < info.graph.coders.length) (hnodup : info.decodeOrder.Nodup)
    (hmem : junction ∈ info.decodeOrder) :
    Builds setup (buildBcj2Folder setup info)
      (coderStage info (info.graph.coders.length + 1) final) := by
  rw [horder] at hmem hnodup
  obtain ⟨depth, tail, hdepth, hground', hsplit, hbuilds⟩ :=
    @tail_builds setup info hc junction hone _ _ hground hlt hmem
  have hjlt : junction < info.graph.coders.length := lt_of_mem_postOrder hc.wired hlt hmem
  have hnum := hc.numInAt_eq hjlt
  rw [if_pos hb] at hnum
  rw [hsplit, postOrder_succ, hnum, List.append_assoc] at hnodup
  -- the junction occurs once in the order, so its branches have no other
  have hno : ∀ x ∈ branches info.graph depth junction 4, methodAt info.graph x ≠ .bcj2 := by
    intro x hx hxb
    have hxlt : x < info.graph.coders.length := by
      obtain ⟨slot, -, producer, hs, hx⟩ := mem_branches.mp hx
      exact lt_of_mem_postOrder hc.wired (source_lt hc.wired hs) hx
    obtain rfl := hone x hxlt hxb
    exact (List.nodup_append.mp hnodup).2.2 x hx x List.mem_cons_self rfl
  unfold buildBcj2Folder
  rw [horder, hsplit, postOrder_succ, hnum, List.append_assoc,
    List.dropWhile_append_of_pos fun x hx => ?_]
  · rw [List.singleton_append, List.dropWhile_cons_of_neg (by simpa using isBcj2_iff.mpr hb)]
    exact (junction_builds hc hb hjlt hground' (by omega) hno).bind hbuilds
  · rw [Bool.not_eq_true', Bool.eq_false_iff]
    exact fun h => hno x hx (isBcj2_iff.mp h)

/-! ### The decoder -/

/-- Two positions of a list whose members satisfy a predicate which only one does. -/
theorem index_unique {α : Type} {p : α → Bool} : ∀ {l : List α} {i j : ℕ} {a b : α},
    l.countP p ≤ 1 → l[i]? = some a → l[j]? = some b → p a = true → p b = true → i = j
  | [], _, _, _, _, _, ha, _, _, _ => by cases ha
  | x :: l, i, j, a, b, hcount, ha, hb, hpa, hpb => by
    have hnone : p x = true → ∀ y ∈ l, ¬ p y = true := by
      intro hx
      rw [List.countP_cons_of_pos hx] at hcount
      exact List.countP_eq_zero.mp (by omega)
    cases i with
    | zero =>
      cases ha
      cases j with
      | zero => rfl
      | succ j => exact absurd hpb (hnone hpa b (List.mem_of_getElem? hb))
    | succ i =>
      cases j with
      | zero =>
        cases hb
        exact absurd hpa (hnone hpb a (List.mem_of_getElem? ha))
      | succ j =>
        refine congrArg Nat.succ (index_unique (le_trans ?_ hcount) ha hb hpa hpb)
        rw [List.countP_cons]
        exact Nat.le_add_right _ _

/-- **The decoder of a resolved folder is the tree under its final output**, unless a set-up
fails. -/
theorem built (hc : Checked info) (hdecodable : info.isDecodable = true) {final : ℕ}
    (hlt : final < info.graph.coders.length)
    (horder : info.decodeOrder =
      postOrder info.graph (info.graph.coders.length + 1) final)
    (hground : Grounded info.graph (info.graph.coders.length + 1) final)
    (hnodup : info.decodeOrder.Nodup) :
    Builds setup (buildFolderReader setup info)
      (coderStage info (info.graph.coders.length + 1) final) := by
  unfold buildFolderReader
  rw [hdecodable]
  simp only [Bool.not_true, Bool.false_eq_true, if_false]
  cases hmemory : setup.memory info with
  | error e => exact .inr ⟨e, rfl, .inl ⟨info, hmemory⟩⟩
  | ok u =>
    rw [ok_bind]
    by_cases hlinear : info.graph.isLinearChain = true
    · rw [if_pos hlinear]
      obtain ⟨hone, hall⟩ := Bool.and_eq_true_iff.mp hlinear
      unfold buildLinearFolder
      rw [horder]
      refine linear_builds hc (beq_iff_eq.mp hone) (fun index hindex => ?_) hground hlt
      obtain ⟨coder, hget, hmethod, -, -, -⟩ := hc.coder_eq hindex
      have := List.all_eq_true.mp hall coder (List.mem_of_getElem? hget)
      rw [← hmethod]
      exact bne_iff_ne.mp (Bool.and_eq_true_iff.mp this).2
    · rw [if_neg hlinear]
      unfold FolderInfo.isDecodable at hdecodable
      obtain ⟨h, hlength⟩ := Bool.and_eq_true_iff.mp ((Bool.or_eq_true_iff.mp
        (Bool.and_eq_true_iff.mp hdecodable).2).resolve_left hlinear)
      have hcount := beq_iff_eq.mp (Bool.and_eq_true_iff.mp h).2
      obtain ⟨coder, hcoder, hb⟩ := List.countP_pos_iff.mp (by omega : 0 <
        info.graph.coders.countP fun c => c.method == .bcj2)
      obtain ⟨junction, hjlt, rfl⟩ := List.getElem_of_mem hcoder
      have hget := List.getElem?_eq_getElem hjlt
      have hjb : methodAt info.graph junction = .bcj2 := by
        rw [methodAt, hget]
        exact beq_iff_eq.mp hb
      refine bcj2_builds hc (fun x hx hxb => ?_) hjb horder hground hlt hnodup ?_
      · obtain ⟨coder, hget', hmethod, -, -, -⟩ := hc.coder_eq hx
        exact index_unique hcount.le hget' hget (beq_iff_eq.mpr (hmethod.trans hxb)) hb
      · -- the order has as many coders as the graph
        have hsub : info.decodeOrder ⊆ List.range info.graph.coders.length := fun x hx =>
          List.mem_range.mpr (lt_of_mem_postOrder hc.wired hlt (horder ▸ hx))
        have hperm : info.decodeOrder.Perm (List.range info.graph.coders.length) :=
          (hnodup.subperm hsub).perm_of_length_le (by
            rw [List.length_range, beq_iff_eq.mp hlength])
        exact hperm.mem_iff.mpr (List.mem_range.mpr hjlt)

/-- The folder was parsed, resolved and found to be decodable, and its tables fit. -/
theorem checked_of_read {b : Build} {r r' : ByteReader} {order : List ℕ}
    (hread : readFolder b r = .ok (info.graph, r')) (hresolve : resolveFolder info.graph = .ok order)
    (hplaced : Placed info) (hdecodable : info.isDecodable = true) : Checked info :=
  have hshaped := shaped_of_isDecodable hdecodable
  ⟨wired_of_resolved (pairs_of_readFolder hread) (resolved_of_resolveFolder hresolve) hshaped,
    hshaped, hplaced⟩

/-- **The decoder of a folder computes its graph if and only if no coder lies on a cycle of bind
pairs.** -/
theorem computesGraph_iff_acyclic {b : Build} {r r' : ByteReader} {f : Folder} {order : List ℕ}
    {info : FolderInfo} (hread : readFolder b r = .ok (f, r')) (hresolve : resolveFolder f = .ok order)
    (hgraph : info.graph = f) (horder : info.decodeOrder = order) (hplaced : Placed info)
    (hdecodable : info.isDecodable = true) : ComputesGraph info ↔ Acyclic f := by
  subst hgraph horder
  have hc := checked_of_read hread hresolve hplaced hdecodable
  obtain ⟨final, hfinal, hlt, horder, hground, hnodup⟩ :=
    order_of_resolved hc.wired (resolved_of_resolveFolder hresolve)
  have hperm := perm_iff_acyclic hc.wired hfinal hlt hground (horder ▸ hnodup)
  have hcoders := coders_coderStage hc hground hlt
  constructor
  · intro h
    rcases h ⟨fun _ => .ok (), fun _ _ _ => .ok ()⟩ with ⟨e, -, hreports⟩ |
      ⟨stage, final', hstage, hfinal', hall, -⟩
    · rcases hreports with ⟨_, he⟩ | ⟨_, _, _, he⟩
      · cases he
      · cases he
    · rcases built hc hdecodable hlt horder hground hnodup with hok | ⟨e, he, -⟩
      · rw [hok] at hstage
        cases hstage
        rw [hcoders] at hall
        exact hperm.mp hall
      · rw [he] at hstage
        cases hstage
  · intro hacyclic setup
    rcases built hc hdecodable hlt horder hground hnodup with hok | ⟨e, he, hreports⟩
    · refine .inr ⟨_, final, hok, hfinal, hcoders ▸ hperm.mpr hacyclic, fun σ coding => ⟨?_, ?_⟩⟩
      · refine ⟨_, _, solves_outputs hc coding fun index hindex => ?_⟩
        exact grounded_of_mem hground
          (mem_order_of_acyclic hc.wired hfinal hground hacyclic hindex)
      · exact fun input output hsolves => output_coderStage hc hsolves hground hlt
    · exact .inl ⟨e, he, hreports⟩

/-- Two coders on one pack stream: the second one feeds the first. -/
def twoFilters : Folder :=
  { coders := [⟨.filter (.bcj .arm 0), 1, 1⟩, ⟨.filter (.bcj .arm 0), 1, 1⟩]
    bindPairs := [⟨0, 1⟩]
    packedIndices := [1] }

/-- A folder with that graph. -/
def twoFiltersInfo : FolderInfo := ⟨twoFilters, 32, [3], 3, [3, 3], [1, 0], [3], [none]⟩

theorem twoFilters_acyclic : Acyclic twoFilters := by
  have hfeeds : ∀ {a b : ℕ}, Feeds twoFilters a b → a = 1 ∧ b = 0 := by
    rintro a b ⟨pair, hmem, hout, slot, hslot, hin⟩
    obtain rfl := List.mem_singleton.mp hmem
    cases hout
    refine ⟨rfl, ?_⟩
    match b with
    | 0 => rfl
    | 1 =>
      simp [twoFilters, Folder.inBase] at hin
      omega
    | b + 2 => simp [numInAt, twoFilters] at hslot
  intro coder hcycle
  obtain ⟨b, hb, -⟩ := Relation.TransGen.head'_iff.mp hcycle
  obtain ⟨a, -, ha⟩ := Relation.TransGen.tail'_iff.mp hcycle
  have h1 := (hfeeds hb).1
  have h0 := (hfeeds ha).2
  omega

theorem twoFilters_read : readFolder {} { rest := [2, 4, 3, 3, 5, 1, 4, 3, 3, 5, 1, 0, 1] } =
    .ok (twoFilters, { pos := 13, rest := [] }) := by decide +kernel

theorem twoFilters_computed : ComputesGraph twoFiltersInfo :=
  have hresolve : resolveFolder twoFilters = .ok [1, 0] := by decide +kernel
  (computesGraph_iff_acyclic twoFilters_read hresolve rfl rfl ⟨rfl, rfl, by decide⟩
    (by decide)).mpr twoFilters_acyclic

/-- The first of two coders feeds itself, the second has the pack stream. -/
def selfFed : Folder := { twoFilters with bindPairs := [⟨0, 0⟩] }

/-- A folder with that graph. -/
def selfFedInfo : FolderInfo := { twoFiltersInfo with graph := selfFed, decodeOrder := [1] }

/-- **A cycle beside the final output is not found**, and its coders are left out. -/
theorem cycle_leftOut : ¬ ∀ {b : Build} {r r' : ByteReader} {f : Folder} {order : List ℕ}
    {info : FolderInfo}, readFolder b r = .ok (f, r') → resolveFolder f = .ok order →
    info.graph = f → info.decodeOrder = order → Placed info → info.isDecodable = true →
    ComputesGraph info := by
  intro h
  have hread : readFolder {} { rest := [2, 4, 3, 3, 5, 1, 4, 3, 3, 5, 1, 0, 0] } =
    .ok (selfFed, { pos := 13, rest := [] }) := by decide +kernel
  have hresolve : resolveFolder selfFed = .ok [1] := by decide +kernel
  have hcomputes : ComputesGraph selfFedInfo :=
    h hread hresolve rfl rfl ⟨rfl, rfl, by decide⟩ (by decide)
  rcases hcomputes ⟨fun _ => .ok (), fun _ _ _ => .ok ()⟩ with ⟨e, he, -⟩ |
    ⟨stage, final, hstage, -, hperm, -⟩
  · cases he
  · cases hstage
    exact absurd hperm.length_eq (by decide)

end LibarchiveOxide.SevenZip.Built
