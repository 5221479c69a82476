import LibarchiveOxide.SevenZip.Archive

/-! # The wiring of a folder

In a folder that can be decoded every coder has one output, so outputs are coders, and every input has
one source: a bind pair or a pack stream (`Wired`). No output is consumed twice (`source_inj`), all
but the final one are consumed (`consumed_of_ne_final`), and every input belongs to one coder
(`inBase_add_inj`). -/

namespace LibarchiveOxide.SevenZip.Wiring

open Core.Failure Lib Lib.Result SevenZip.Wire SevenZip.Graph SevenZip.FolderReader

variable {f : Folder}

/-! ### Inputs and their coders -/

variable {input : ℕ}

/-- The number of inputs of a coder. -/
def numInAt (f : Folder) (index : ℕ) : ℕ := (f.coders[index]?.map Coder.numIn).getD 0

theorem numInAt_of_getElem {index : ℕ} {coder : Coder} (h : f.coders[index]? = some coder) :
    numInAt f index = coder.numIn := by
  rw [numInAt, h]
  rfl

theorem inBase_succ (index : ℕ) : f.inBase (index + 1) = f.inBase index + numInAt f index := by
  unfold Folder.inBase numInAt
  rw [List.take_add_one, List.map_append, List.sum_append]
  cases f.coders[index]? with
  | none => rfl
  | some coder => simp

theorem inBase_mono {a b : ℕ} (h : a ≤ b) : f.inBase a ≤ f.inBase b := by
  induction b, h using Nat.le_induction with
  | base => exact le_rfl
  | succ b _ ih => exact ih.trans (by rw [inBase_succ]; exact Nat.le_add_right _ _)

theorem inBase_length : f.inBase f.coders.length = f.totalIn := by
  rw [Folder.inBase, List.take_length, Folder.totalIn]

theorem inBase_add_lt {index slot : ℕ} (hslot : slot < numInAt f index) :
    f.inBase index + slot < f.totalIn := by
  have hindex : index < f.coders.length := by
    by_contra hle
    rw [numInAt, List.getElem?_eq_none (Nat.le_of_not_lt hle)] at hslot
    exact absurd hslot (Nat.not_lt_zero _)
  rw [← inBase_length]
  refine lt_of_lt_of_le ?_ (inBase_mono hindex)
  rw [inBase_succ]
  omega

/-- **An input belongs to one coder.** -/
theorem inBase_add_inj {a b slot slot' : ℕ} (ha : slot < numInAt f a) (hb : slot' < numInAt f b)
    (h : f.inBase a + slot = f.inBase b + slot') : a = b ∧ slot = slot' := by
  have hle : ∀ {x y s s' : ℕ}, s < numInAt f x → f.inBase x + s = f.inBase y + s' → ¬ x < y := by
    intro x y s s' hs heq hlt
    have := inBase_mono (f := f) (Nat.succ_le_of_lt hlt)
    rw [inBase_succ] at this
    omega
  have hab : a = b := by
    have h1 := hle ha h
    have h2 := hle hb h.symm
    omega
  subst hab
  exact ⟨rfl, by omega⟩

theorem exists_owner (h : input < f.totalIn) :
    ∃ index slot, slot < numInAt f index ∧ input = f.inBase index + slot := by
  have hgen : ∀ n, input < f.inBase n → ∃ index slot, slot < numInAt f index ∧
      input = f.inBase index + slot := by
    intro n
    induction n with
    | zero => intro hlt; simp [Folder.inBase] at hlt
    | succ n ih =>
      intro hlt
      by_cases hn : input < f.inBase n
      · exact ih hn
      · rw [inBase_succ] at hlt
        exact ⟨n, input - f.inBase n, by omega, by omega⟩
  exact hgen f.coders.length (by rw [inBase_length]; exact h)

/-! ### Sources -/

variable {out : ℕ}

/-- The output stream that a bind pair leads to an input. -/
def source (f : Folder) (input : ℕ) : Option ℕ :=
  (f.bindPairs.find? fun pair => pair.inIndex == input).map BindPair.outIndex

/-- Every coder has one output, every input has one source, and no output has two consumers; there
are bind pairs for all outputs but one. -/
structure Wired (f : Folder) : Prop where
  single : ∀ coder ∈ f.coders, coder.numOut = 1
  pairs : f.bindPairs.length + 1 = f.coders.length
  inRange : ∀ pair ∈ f.bindPairs, pair.inIndex < f.totalIn ∧ pair.outIndex < f.coders.length
  packedRange : ∀ input ∈ f.packedIndices, input < f.totalIn
  fed : ∀ input < f.totalIn, f.bindPairs.countP (fun pair => pair.inIndex == input) +
    f.packedIndices.countP (fun packed => packed == input) = 1
  consumed : ∀ out < f.coders.length, f.bindPairs.countP (fun pair => pair.outIndex == out) ≤ 1

theorem mem_of_source (h : source f input = some out) :
    (⟨input, out⟩ : BindPair) ∈ f.bindPairs := by
  obtain ⟨pair, hpair, rfl⟩ := Option.map_eq_some_iff.mp h
  have hin := List.find?_some hpair
  obtain rfl : pair.inIndex = input := beq_iff_eq.mp hin
  exact List.mem_of_find?_eq_some hpair

/-- Two members of a list that satisfy a predicate which only one does. -/
theorem eq_of_countP_le_one {α : Type} {p : α → Bool} : ∀ {l : List α} {a b : α},
    l.countP p ≤ 1 → a ∈ l → b ∈ l → p a = true → p b = true → a = b
  | [], _, _, _, ha, _, _, _ => absurd ha List.not_mem_nil
  | x :: l, a, b, hcount, ha, hb, hpa, hpb => by
    have hnone : p x = true → ∀ y ∈ l, ¬ p y = true := by
      intro hx
      rw [List.countP_cons_of_pos hx] at hcount
      exact List.countP_eq_zero.mp (by omega)
    rcases List.mem_cons.mp ha with rfl | ha'
    · rcases List.mem_cons.mp hb with rfl | hb'
      · rfl
      · exact absurd hpb (hnone hpa b hb')
    · rcases List.mem_cons.mp hb with rfl | hb'
      · exact absurd hpa (hnone hpb a ha')
      · refine eq_of_countP_le_one (le_trans ?_ hcount) ha' hb' hpa hpb
        rw [List.countP_cons]
        exact Nat.le_add_right _ _

theorem source_lt (hw : Wired f) (h : source f input = some out) :
    out < f.coders.length := (hw.inRange _ (mem_of_source h)).2

/-- **An output is consumed once.** -/
theorem source_inj (hw : Wired f) {a b : ℕ} (ha : source f a = some out)
    (hb : source f b = some out) : a = b := by
  have heq := eq_of_countP_le_one (hw.consumed out (source_lt hw ha)) (mem_of_source ha)
    (mem_of_source hb) (beq_self_eq_true out) (beq_self_eq_true out)
  exact congrArg BindPair.inIndex heq

theorem source_of_unique {pair : BindPair} (h : pair ∈ f.bindPairs)
    (hcount : f.bindPairs.countP (fun p => p.inIndex == pair.inIndex) ≤ 1) :
    source f pair.inIndex = some pair.outIndex := by
  unfold source
  cases hfind : f.bindPairs.find? fun p => p.inIndex == pair.inIndex with
  | none =>
    exact absurd (beq_self_eq_true pair.inIndex) (List.find?_eq_none.mp hfind pair h)
  | some pair' =>
    have hin := List.find?_some hfind
    rw [eq_of_countP_le_one hcount (List.mem_of_find?_eq_some hfind) h hin
      (beq_self_eq_true pair.inIndex)]
    rfl

theorem source_of_mem (hw : Wired f) {pair : BindPair} (h : pair ∈ f.bindPairs) :
    source f pair.inIndex = some pair.outIndex := by
  have hone := hw.fed _ (hw.inRange _ h).1
  exact source_of_unique h (by omega)

theorem packed_of_source_none (hw : Wired f) (hlt : input < f.totalIn) (h : source f input = none) :
    input ∈ f.packedIndices := by
  have hzero : f.bindPairs.countP (fun pair => pair.inIndex == input) = 0 := by
    rw [List.countP_eq_zero]
    exact List.find?_eq_none.mp (Option.map_eq_none_iff.mp h)
  have hone := hw.fed input hlt
  obtain ⟨packed, hmem, heq⟩ := List.countP_pos_iff.mp (show 0 < f.packedIndices.countP
    (fun packed => packed == input) by omega)
  exact beq_iff_eq.mp heq ▸ hmem

theorem source_none_of_packed (hw : Wired f) (h : input ∈ f.packedIndices) :
    source f input = none := by
  cases hs : source f input with
  | none => rfl
  | some out =>
    have hpair := mem_of_source hs
    have h1 : 0 < f.bindPairs.countP (fun pair => pair.inIndex == input) :=
      List.countP_pos_iff.mpr ⟨_, hpair, beq_self_eq_true input⟩
    have h2 : 0 < f.packedIndices.countP (fun packed => packed == input) :=
      List.countP_pos_iff.mpr ⟨_, h, beq_self_eq_true input⟩
    have := hw.fed input (hw.packedRange input h)
    omega

/-- Outputs are coders. -/
theorem coderOfOut_eq (hw : Wired f) (hlt : out < f.coders.length) :
    f.coderOfOut out = some out := by
  have hloop : ∀ (cs : List Coder) (index : ℕ), (∀ coder ∈ cs, coder.numOut = 1) → index ≤ out →
      out < index + cs.length → Folder.coderOfOutLoop out cs index index = some out := by
    intro cs
    induction cs with
    | nil => intro index _ hle hlt; simp only [List.length_nil] at hlt; omega
    | cons coder cs ih =>
      intro index hone hle hlt
      unfold Folder.coderOfOutLoop
      rw [hone coder List.mem_cons_self]
      by_cases hhere : out < index + 1
      · rw [if_pos hhere, show index = out by omega]
      · rw [if_neg hhere]
        exact ih (index + 1) (fun c hc => hone c (List.mem_cons_of_mem _ hc)) (by omega)
          (by rw [List.length_cons] at hlt; omega)
  exact hloop f.coders 0 hw.single (Nat.zero_le _) (by omega)

theorem outBase_eq (hw : Wired f) {index : ℕ} (hle : index ≤ f.coders.length) :
    outBase f index = index := by
  have hsum : ∀ cs : List Coder, (∀ coder ∈ cs, coder.numOut = 1) →
      (cs.map Coder.numOut).sum = cs.length := by
    intro cs hone
    induction cs with
    | nil => rfl
    | cons coder cs ih =>
      rw [List.map_cons, List.sum_cons, hone coder List.mem_cons_self,
        ih fun c hc => hone c (List.mem_cons_of_mem _ hc), List.length_cons, Nat.add_comm]
  rw [outBase, hsum _ fun c hc => hw.single c (List.mem_of_mem_take hc), List.length_take]
  omega

theorem totalOut_eq (hw : Wired f) : f.totalOut = f.coders.length := by
  have := outBase_eq hw (le_refl f.coders.length)
  rwa [outBase, List.take_length] at this

/-! ### What parsing and resolving check -/

/-- What `resolve_folder` finds before it orders the coders. -/
structure Resolved (f : Folder) (order : List ℕ) : Prop where
  pairs : ∀ pair ∈ f.bindPairs, pair.inIndex < f.totalIn ∧ pair.outIndex < f.totalOut
  packed : ∀ input ∈ f.packedIndices, input < f.totalIn
  fed : ∀ input < f.totalIn, f.bindPairs.countP (fun pair => pair.inIndex == input) +
    f.packedIndices.countP (fun packed => packed == input) = 1
  consumed : ∀ out < f.totalOut, f.bindPairs.countP (fun pair => pair.outIndex == out) ≤ 1
  visited : ∃ final sink marks, f.finalOutIndex = .ok final ∧ f.coderOfOut final = some sink ∧
    visitCoder f (f.coders.length + 1) sink (List.replicate f.coders.length .unvisited, []) =
      .ok (marks, order)

theorem resolved_of_resolveFolder {order : List ℕ} (h : resolveFolder f = .ok order) :
    Resolved f order := by
  unfold resolveFolder at h
  by_cases hpairs : (f.bindPairs.any fun p =>
      decide (f.totalIn ≤ p.inIndex ∨ f.totalOut ≤ p.outIndex)) = true
  · rw [if_pos hpairs] at h; cases h
  rw [if_neg hpairs] at h
  by_cases hpacked : (f.packedIndices.any fun p => decide (f.totalIn ≤ p)) = true
  · rw [if_pos hpacked] at h; cases h
  rw [if_neg hpacked] at h
  by_cases hfed : ((inSources f).any (· != 1)) = true
  · rw [if_pos hfed] at h; cases h
  rw [if_neg hfed] at h
  by_cases hconsumed : ((outConsumers f).any fun n => decide (1 < n)) = true
  · rw [if_pos hconsumed] at h; cases h
  rw [if_neg hconsumed] at h
  obtain ⟨final, hfinal, h⟩ := bind_eq_ok.mp h
  obtain ⟨sink, hsink, h⟩ := bind_eq_ok.mp h
  obtain ⟨⟨marks, order'⟩, hvisit, h⟩ := bind_eq_ok.mp h
  cases h
  rw [List.any_eq_true] at hpairs hpacked hfed hconsumed
  refine ⟨fun pair hmem => ?_, fun input hmem => ?_, fun input hlt => ?_, fun out hlt => ?_,
    final, sink, marks, hfinal, okOr_eq_ok.mp hsink, hvisit⟩
  · by_contra hbad
    exact hpairs ⟨pair, hmem, decide_eq_true (by omega)⟩
  · by_contra hbad
    exact hpacked ⟨input, hmem, decide_eq_true (by omega)⟩
  · by_contra hbad
    exact hfed ⟨_, List.mem_map.mpr ⟨input, List.mem_range.mpr hlt, rfl⟩, bne_iff_ne.mpr hbad⟩
  · by_contra hbad
    exact hconsumed ⟨_, List.mem_map.mpr ⟨out, List.mem_range.mpr hlt, rfl⟩,
      decide_eq_true (by omega)⟩

/-- A parsed folder has bind pairs for all outputs but one. -/
theorem pairs_of_readFolder {b : Build} {r r' : ByteReader} (h : readFolder b r = .ok (f, r')) :
    f.bindPairs.length + 1 = f.totalOut := by
  unfold readFolder at h
  obtain ⟨numCoders, r₁, -, h⟩ := Parser.bind_eq_ok.mp h
  obtain ⟨-, h⟩ := Parser.guard_eq_ok.mp h
  obtain ⟨left, r₂, -, h⟩ := Parser.bind_eq_ok.mp h
  obtain ⟨-, h⟩ := Parser.guard_eq_ok.mp h
  obtain ⟨coders, r₃, -, h⟩ := Parser.bind_eq_ok.mp h
  obtain ⟨hzero, h⟩ := Parser.guard_eq_ok.mp h
  obtain ⟨left', r₄, -, h⟩ := Parser.bind_eq_ok.mp h
  obtain ⟨-, h⟩ := Parser.guard_eq_ok.mp h
  obtain ⟨bindPairs, r₅, hpairs, h⟩ := Parser.bind_eq_ok.mp h
  obtain ⟨-, h⟩ := Parser.guard_eq_ok.mp h
  obtain ⟨packedIndices, r₆, -, h⟩ := Parser.bind_eq_ok.mp h
  cases h
  rw [Parser.length_times hpairs]
  exact Nat.sub_add_cancel (Nat.one_le_iff_ne_zero.mpr hzero)

/-- The coder of a graph that can be decoded: the junction, or a coder with one input. -/
def Shaped (coder : Coder) : Prop :=
  coder.method ≠ .unsupported ∧ coder.numOut = 1 ∧
    coder.numIn = if coder.method = .bcj2 then 4 else 1

theorem shaped_of_isDecodable {info : FolderInfo} (h : info.isDecodable = true) :
    ∀ coder ∈ info.graph.coders, Shaped coder := by
  intro coder hmem
  unfold FolderInfo.isDecodable at h
  obtain ⟨hsupported, h⟩ := Bool.and_eq_true_iff.mp h
  refine ⟨bne_iff_ne.mp (List.all_eq_true.mp hsupported coder hmem), ?_⟩
  rcases Bool.or_eq_true_iff.mp h with hlinear | hjunction
  · have := List.all_eq_true.mp (Bool.and_eq_true_iff.mp hlinear).2 coder hmem
    obtain ⟨h1, h2⟩ := Bool.and_eq_true_iff.mp this
    obtain ⟨h3, h4⟩ := Bool.and_eq_true_iff.mp h1
    exact ⟨beq_iff_eq.mp h4, by rw [if_neg (bne_iff_ne.mp h2)]; exact beq_iff_eq.mp h3⟩
  · have := List.all_eq_true.mp (Bool.and_eq_true_iff.mp (Bool.and_eq_true_iff.mp hjunction).1).1
      coder hmem
    by_cases hb : coder.method = .bcj2
    · rw [if_pos hb] at this ⊢
      obtain ⟨h1, h2⟩ := Bool.and_eq_true_iff.mp this
      exact ⟨beq_iff_eq.mp h2, beq_iff_eq.mp h1⟩
    · rw [if_neg hb] at this ⊢
      obtain ⟨h1, h2⟩ := Bool.and_eq_true_iff.mp this
      exact ⟨beq_iff_eq.mp h2, beq_iff_eq.mp h1⟩

/-- **A parsed and resolved folder that can be decoded is wired.** -/
theorem wired_of_resolved {order : List ℕ} (hpairs : f.bindPairs.length + 1 = f.totalOut)
    (hr : Resolved f order) (hshaped : ∀ coder ∈ f.coders, Shaped coder) : Wired f := by
  have htotal : f.totalOut = f.coders.length := by
    have hsum : ∀ cs : List Coder, (∀ coder ∈ cs, Shaped coder) →
        (cs.map Coder.numOut).sum = cs.length := by
      intro cs hone
      induction cs with
      | nil => rfl
      | cons coder cs ih =>
        rw [List.map_cons, List.sum_cons, (hone coder List.mem_cons_self).2.1,
          ih fun c hc => hone c (List.mem_cons_of_mem _ hc), List.length_cons, Nat.add_comm]
    exact hsum _ hshaped
  rw [htotal] at hpairs
  exact {
    single := fun coder hmem => (hshaped coder hmem).2.1
    pairs := hpairs
    inRange := fun pair hmem => htotal ▸ hr.pairs pair hmem
    packedRange := hr.packed
    fed := hr.fed
    consumed := fun out hlt => hr.consumed out (htotal ▸ hlt) }

/-- If there are bind pairs for all of some outputs but one, then all are consumed but the free
one. -/
theorem consumed_of_ne_free {outputs free : ℕ} (hpairs : f.bindPairs.length + 1 = outputs)
    (hrange : ∀ pair ∈ f.bindPairs, pair.outIndex < outputs)
    (hconsumed : ∀ out < outputs, f.bindPairs.countP (fun pair => pair.outIndex == out) ≤ 1)
    (hlt : free < outputs) (hfree : ∀ pair ∈ f.bindPairs, pair.outIndex ≠ free)
    (hout : out < outputs) (hne : out ≠ free) : ∃ pair ∈ f.bindPairs, pair.outIndex = out := by
  have hnodup : (f.bindPairs.map BindPair.outIndex).Nodup := by
    rw [List.nodup_iff_count_le_one]
    intro x
    rw [List.count, List.countP_map]
    by_cases hx : x < outputs
    · exact hconsumed x hx
    · rw [List.countP_eq_zero.mpr fun pair hmem => ?_]
      · exact Nat.zero_le _
      · have := hrange pair hmem
        simp only [Function.comp_apply, beq_iff_eq]
        omega
  have heq : (f.bindPairs.map BindPair.outIndex).toFinset = (Finset.range outputs).erase free := by
    refine Finset.eq_of_subset_of_card_le (fun x hx => ?_) ?_
    · obtain ⟨pair, hmem, rfl⟩ := List.mem_map.mp (List.mem_toFinset.mp hx)
      exact Finset.mem_erase.mpr ⟨hfree pair hmem, Finset.mem_range.mpr (hrange pair hmem)⟩
    · rw [Finset.card_erase_of_mem (Finset.mem_range.mpr hlt), Finset.card_range,
        List.toFinset_card_of_nodup hnodup, List.length_map]
      omega
  have hmem : out ∈ (f.bindPairs.map BindPair.outIndex).toFinset := by
    rw [heq]
    exact Finset.mem_erase.mpr ⟨hne, Finset.mem_range.mpr hout⟩
  obtain ⟨pair, hpair, hx⟩ := List.mem_map.mp (List.mem_toFinset.mp hmem)
  exact ⟨pair, hpair, hx⟩

/-- No bind pair leads from the final output. -/
theorem free_of_finalOutIndex {final : ℕ} (h : f.finalOutIndex = .ok final) :
    final < f.totalOut ∧ ∀ pair ∈ f.bindPairs, pair.outIndex ≠ final := by
  have hfind := okOr_eq_ok.mp h
  have hfree := List.find?_some hfind
  simp only [Bool.not_eq_true', List.any_eq_false, beq_iff_eq] at hfree
  exact ⟨List.mem_range.mp (List.mem_of_find?_eq_some hfind), hfree⟩

/-- **All outputs but the final one are consumed.** -/
theorem consumed_of_ne_final (hw : Wired f) {final : ℕ} (hfinal : f.finalOutIndex = .ok final)
    (hout : out < f.coders.length) (hne : out ≠ final) :
    ∃ pair ∈ f.bindPairs, pair.outIndex = out := by
  obtain ⟨hlt, hfree⟩ := free_of_finalOutIndex hfinal
  rw [totalOut_eq hw] at hlt
  exact consumed_of_ne_free hw.pairs (fun pair hmem => (hw.inRange pair hmem).2) hw.consumed hlt
    hfree hout hne

end LibarchiveOxide.SevenZip.Wiring
