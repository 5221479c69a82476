import LibarchiveOxide.Lib.DepthFirst
import LibarchiveOxide.SevenZip.Built

/-! # What resolving a folder accepts

A folder of any arities is resolved by a depth-first search over the producers of its coders
(`visitCoder_eq`). The search goes no deeper than there are coders, and it succeeds exactly if no
cycle of bind pairs leads to the coder of the final output (`resolveFolder_eq_ok_iff`). A cycle
elsewhere is not found: its coders are missing from the order (`resolves_exactly_iff`). -/

namespace LibarchiveOxide.SevenZip.Resolving

open Core.Failure Lib Lib.Result Relation
open LibarchiveOxide.Lib.DepthFirst (Depends visit)
open SevenZip.Wire SevenZip.Graph SevenZip.Wiring SevenZip.FolderReader SevenZip.Order
open SevenZip.Trees SevenZip.Built

variable {f : Folder}

/-! ### Streams -/

/-- The stream numbers of a folder are in range, every input has one source and no output has two
consumers. -/
structure Streams (f : Folder) : Prop where
  pairs : ∀ pair ∈ f.bindPairs, pair.inIndex < f.totalIn ∧ pair.outIndex < f.totalOut
  packed : ∀ input ∈ f.packedIndices, input < f.totalIn
  fed : ∀ input < f.totalIn, f.bindPairs.countP (fun pair => pair.inIndex == input) +
    f.packedIndices.countP (fun packed => packed == input) = 1
  consumed : ∀ out < f.totalOut, f.bindPairs.countP (fun pair => pair.outIndex == out) ≤ 1

/-- The coder has an output that no bind pair consumes. -/
def Final (f : Folder) (coder : ℕ) : Prop :=
  ∃ out < f.totalOut, (∀ pair ∈ f.bindPairs, pair.outIndex ≠ out) ∧ f.coderOfOut out = some coder

theorem Streams.source_eq (hs : Streams f) {pair : BindPair} (h : pair ∈ f.bindPairs) :
    source f pair.inIndex = some pair.outIndex := by
  have hone := hs.fed _ (hs.pairs pair h).1
  exact source_of_unique h (by omega)

/-! ### Outputs and their coders -/

variable {coder : ℕ}

theorem coderOfOutLoop_lt {out : ℕ} : ∀ {cs : List Coder} {index base coder : ℕ},
    Folder.coderOfOutLoop out cs index base = some coder → coder < index + cs.length
  | [], _, _, _, h => by cases h
  | c :: cs, index, base, coder, h => by
    unfold Folder.coderOfOutLoop at h
    rw [List.length_cons]
    by_cases hhere : out < base + c.numOut
    · rw [if_pos hhere] at h
      cases h
      omega
    · rw [if_neg hhere] at h
      have := coderOfOutLoop_lt h
      omega

theorem coderOfOut_lt {out : ℕ} (h : f.coderOfOut out = some coder) : coder < f.coders.length := by
  have := coderOfOutLoop_lt h
  omega

theorem exists_coderOfOutLoop {out : ℕ} : ∀ {cs : List Coder} {index base : ℕ},
    out < base + (cs.map Coder.numOut).sum → base ≤ out →
    ∃ coder, Folder.coderOfOutLoop out cs index base = some coder
  | [], _, base, h, hle => by
    rw [List.map_nil, List.sum_nil] at h
    omega
  | c :: cs, index, base, h, hle => by
    unfold Folder.coderOfOutLoop
    by_cases hhere : out < base + c.numOut
    · rw [if_pos hhere]
      exact ⟨index, rfl⟩
    · rw [if_neg hhere]
      rw [List.map_cons, List.sum_cons] at h
      exact exists_coderOfOutLoop (by omega) (by omega)

theorem exists_coderOfOut {out : ℕ} (h : out < f.totalOut) : ∃ coder, f.coderOfOut out = some coder :=
  exists_coderOfOutLoop (by rwa [Nat.zero_add]) (Nat.zero_le _)

theorem coderOfOutLoop_base : ∀ {cs : List Coder} {index base k : ℕ} {coder : Coder},
    cs[k]? = some coder → 0 < coder.numOut →
    Folder.coderOfOutLoop (base + ((cs.take k).map Coder.numOut).sum) cs index base =
      some (index + k)
  | [], _, _, _, _, h, _ => by cases h
  | c :: cs, index, base, 0, coder, h, hpos => by
    cases h
    unfold Folder.coderOfOutLoop
    rw [if_pos (by rw [List.take_zero, List.map_nil, List.sum_nil]; omega)]
    rfl
  | c :: cs, index, base, k + 1, coder, h, hpos => by
    unfold Folder.coderOfOutLoop
    rw [List.take_succ_cons, List.map_cons, List.sum_cons, if_neg (by omega), ← Nat.add_assoc]
    have htail : cs[k]? = some coder := by rwa [List.getElem?_cons_succ] at h
    rw [coderOfOutLoop_base htail hpos]
    congr 1
    omega

/-- A coder with outputs has one at its base. -/
theorem coderOfOut_base {index : ℕ} {coder : Coder} (h : f.coders[index]? = some coder)
    (hpos : 0 < coder.numOut) :
    f.coderOfOut (outBase f index) = some index ∧ outBase f index < f.totalOut := by
  have hbase := @coderOfOutLoop_base f.coders 0 0 index coder h hpos
  rw [Nat.zero_add, Nat.zero_add] at hbase
  refine ⟨hbase, ?_⟩
  obtain ⟨hlt, rfl⟩ := List.getElem?_eq_some_iff.mp h
  have hsum : f.totalOut = (((f.coders.take index) ++ f.coders[index] ::
      f.coders.drop (index + 1)).map Coder.numOut).sum := by
    rw [← List.drop_eq_getElem_cons hlt, List.take_append_drop, Folder.totalOut]
  rw [hsum, List.map_append, List.sum_append, List.map_cons, List.sum_cons, outBase]
  omega

/-! ### The dependencies of a coder -/

/-- The coder that feeds an input. -/
def producerOf (f : Folder) (coder slot : ℕ) : Option ℕ :=
  (source f (f.inBase coder + slot)).bind f.coderOfOut

/-- The coders that feed the inputs of a coder. -/
def producers (f : Folder) (coder : ℕ) : List ℕ :=
  (List.range (numInAt f coder)).filterMap (producerOf f coder)

theorem depends_iff (hs : Streams f) {consumer producer : ℕ} :
    Depends (producers f) consumer producer ↔ Feeds f producer consumer := by
  unfold Depends producers producerOf
  simp only [List.mem_filterMap, List.mem_range]
  constructor
  · rintro ⟨slot, hslot, h⟩
    obtain ⟨out, hout, hcoder⟩ := Option.bind_eq_some_iff.mp h
    exact ⟨_, mem_of_source hout, hcoder, slot, hslot, rfl⟩
  · rintro ⟨pair, hmem, hcoder, slot, hslot, hin⟩
    exact ⟨slot, hslot, by rw [← hin, hs.source_eq hmem]; exact hcoder⟩

theorem depends_eq (hs : Streams f) : Depends (producers f) = Function.swap (Feeds f) := by
  funext consumer producer
  exact propext (depends_iff hs)

theorem cycle_iff (hs : Streams f) :
    TransGen (Depends (producers f)) coder coder ↔ TransGen (Feeds f) coder coder := by
  rw [depends_eq hs]
  exact transGen_swap

theorem reaches_iff (hs : Streams f) {sink : ℕ} :
    ReflTransGen (Depends (producers f)) sink coder ↔ ReflTransGen (Feeds f) coder sink := by
  rw [depends_eq hs]
  exact reflTransGen_swap

theorem producers_lt {producer : ℕ} (h : producer ∈ producers f coder) :
    producer < f.coders.length := by
  obtain ⟨slot, -, hproducer⟩ := List.mem_filterMap.mp h
  obtain ⟨out, -, hcoder⟩ := Option.bind_eq_some_iff.mp hproducer
  exact coderOfOut_lt hcoder

/-! ### The search -/

variable {coders : ℕ} {stack order : List ℕ}

/-- `visit_coder` with the number of nested calls it may make; `none` where it would make more. -/
def visitCoderWithin (f : Folder) : ℕ → ℕ → List DfsMark × List ℕ →
    ExceptT HeaderError Option (List DfsMark × List ℕ)
  | 0, _, _ => ExceptT.mk none
  | depth + 1, coder, (marks, order) =>
    match marks[coder]? with
    | some .done => pure (marks, order)
    | some .inProgress => throw (.malformed "7z: cyclic coder graph")
    | _ => do
      let (marks, order) ← (List.range (numInAt f coder)).foldlM (fun st slot =>
        match f.bindPairs.find? fun p => p.inIndex == f.inBase coder + slot with
        | none => pure st
        | some pair =>
          match f.coderOfOut pair.outIndex with
          | none => throw (.malformed "7z: bind pair output has no coder")
          | some producer => visitCoderWithin f depth producer st)
        (marks.set coder .inProgress, order)
      pure (marks.set coder .done, order ++ [coder])

/-- The marks of a search below the coders of the `stack`, after those of the `order`. -/
def marksOf (coders : ℕ) (stack order : List ℕ) : List DfsMark :=
  (List.range coders).map fun x =>
    if x ∈ order then .done else if x ∈ stack then .inProgress else .unvisited

theorem getElem?_marksOf (stack order : List ℕ) (h : coder < coders) :
    (marksOf coders stack order)[coder]? =
      some (if coder ∈ order then .done else if coder ∈ stack then .inProgress else .unvisited) := by
  unfold marksOf
  rw [List.getElem?_map, List.getElem?_range h, Option.map_some]

theorem marksOf_nil (coders : ℕ) : marksOf coders [] [] = List.replicate coders .unvisited := by
  unfold marksOf
  simp

theorem marksOf_enter (hnew : coder ∉ order) :
    (marksOf coders stack order).set coder .inProgress = marksOf coders (coder :: stack) order := by
  refine List.ext_getElem? fun x => ?_
  by_cases hx : x < coders
  · rw [getElem?_marksOf _ _ hx, List.getElem?_set, getElem?_marksOf _ _ hx]
    by_cases heq : coder = x
    · subst heq
      simp [hnew, marksOf, hx]
    · simp [heq, Ne.symm heq]
  · rw [List.getElem?_eq_none (by simpa [marksOf] using hx),
      List.getElem?_eq_none (by simpa [marksOf] using hx)]

theorem marksOf_leave :
    (marksOf coders (coder :: stack) order).set coder .done =
      marksOf coders stack (order ++ [coder]) := by
  refine List.ext_getElem? fun x => ?_
  by_cases hx : x < coders
  · rw [getElem?_marksOf _ _ hx, List.getElem?_set, getElem?_marksOf _ _ hx]
    by_cases heq : coder = x
    · subst heq
      simp [marksOf, hx]
    · simp [heq, Ne.symm heq]
  · rw [List.getElem?_eq_none (by simpa [marksOf] using hx),
      List.getElem?_eq_none (by simpa [marksOf] using hx)]

/-- What a search has found, with its marks. -/
def answer (coders : ℕ) (stack : List ℕ) : Except DepthFirst.Stop (List ℕ) →
    ExceptT HeaderError Option (List DfsMark × List ℕ)
  | .ok order => pure (marksOf coders stack order, order)
  | .error .cycle => throw (.malformed "7z: cyclic coder graph")
  | .error .depth => ExceptT.mk none

theorem answer_bind {stack' : List ℕ} {found : Except DepthFirst.Stop (List ℕ)}
    {next : List DfsMark × List ℕ → ExceptT HeaderError Option (List DfsMark × List ℕ)}
    {next' : List ℕ → Except DepthFirst.Stop (List ℕ)} (h : ∀ order, found = .ok order →
      next (marksOf coders stack order, order) = answer coders stack' (next' order)) :
    (answer coders stack found >>= next) = answer coders stack' (found >>= next') := by
  match found with
  | .ok order => exact h order rfl
  | .error .cycle => rfl
  | .error .depth => rfl

/-- One round of the loop over the inputs of a coder. -/
def visitInputWithin (f : Folder) (depth coder : ℕ) (st : List DfsMark × List ℕ) (slot : ℕ) :
    ExceptT HeaderError Option (List DfsMark × List ℕ) :=
  match f.bindPairs.find? fun p => p.inIndex == f.inBase coder + slot with
  | none => pure st
  | some pair =>
    match f.coderOfOut pair.outIndex with
    | none => throw (.malformed "7z: bind pair output has no coder")
    | some producer => visitCoderWithin f depth producer st

theorem visitInputWithin_eq (hs : Streams f) (depth coder slot : ℕ) (st : List DfsMark × List ℕ) :
    visitInputWithin f depth coder st slot =
      match producerOf f coder slot with
      | none => pure st
      | some producer => visitCoderWithin f depth producer st := by
  unfold visitInputWithin producerOf source
  cases hfind : f.bindPairs.find? fun p => p.inIndex == f.inBase coder + slot with
  | none => rfl
  | some pair =>
    obtain ⟨producer, hproducer⟩ :=
      exists_coderOfOut (hs.pairs pair (List.mem_of_find?_eq_some hfind)).2
    dsimp only [Option.map_some, Option.bind_some]
    rw [hproducer]

/-- The loop over the inputs of a coder visits its producers. -/
theorem foldlM_visitInputWithin (hs : Streams f) {depth : ℕ}
    (ih : ∀ {producer : ℕ} {order : List ℕ}, producer < f.coders.length →
      visitCoderWithin f depth producer (marksOf f.coders.length stack order, order) =
        answer f.coders.length stack (visit (producers f) depth stack producer order)) :
    ∀ {slots order : List ℕ},
      slots.foldlM (visitInputWithin f depth coder) (marksOf f.coders.length stack order, order) =
        answer f.coders.length stack ((slots.filterMap (producerOf f coder)).foldlM
          (fun order d => visit (producers f) depth stack d order) order)
  | [], _ => rfl
  | slot :: slots, order => by
    rw [List.foldlM_cons, visitInputWithin_eq hs]
    cases hproducer : producerOf f coder slot with
    | none =>
      rw [List.filterMap_cons_none hproducer]
      exact foldlM_visitInputWithin hs ih
    | some producer =>
      obtain ⟨out, -, hcoder⟩ := Option.bind_eq_some_iff.mp hproducer
      rw [List.filterMap_cons_some hproducer, List.foldlM_cons]
      dsimp only
      rw [ih (coderOfOut_lt hcoder)]
      exact answer_bind fun order₁ _ => foldlM_visitInputWithin hs ih

theorem visitCoderWithin_succ (depth coder : ℕ) (marks : List DfsMark) (order : List ℕ) :
    visitCoderWithin f (depth + 1) coder (marks, order) =
      match marks[coder]? with
      | some .done => pure (marks, order)
      | some .inProgress => throw (.malformed "7z: cyclic coder graph")
      | _ => (List.range (numInAt f coder)).foldlM (visitInputWithin f depth coder)
          (marks.set coder .inProgress, order) >>=
        fun st => pure (st.1.set coder .done, st.2 ++ [coder]) := rfl

/-- **The search of `visit_coder` is the depth-first search over the producers.** -/
theorem visitCoderWithin_eq (hs : Streams f) : ∀ {depth : ℕ} {stack : List ℕ} {coder : ℕ}
    {order : List ℕ}, coder < f.coders.length →
    visitCoderWithin f depth coder (marksOf f.coders.length stack order, order) =
      answer f.coders.length stack (visit (producers f) depth stack coder order)
  | 0, _, _, _, _ => rfl
  | depth + 1, stack, coder, order, hlt => by
    rw [visitCoderWithin_succ, getElem?_marksOf _ _ hlt, DepthFirst.visit_succ]
    by_cases hdone : coder ∈ order
    · rw [if_pos hdone, if_pos hdone]
      rfl
    by_cases hopen : coder ∈ stack
    · rw [if_neg hdone, if_pos hopen, if_neg hdone, if_pos hopen]
      rfl
    rw [if_neg hdone, if_neg hopen, if_neg hdone, if_neg hopen]
    dsimp only
    rw [marksOf_enter hdone, foldlM_visitInputWithin hs fun hp => visitCoderWithin_eq hs hp]
    refine answer_bind fun order₁ _ => ?_
    dsimp only
    rw [marksOf_leave]
    rfl

/-- A computation that may be cut short agrees with one that is not. -/
def Within {ε α : Type} (x : ExceptT ε Option α) (y : Except ε α) : Prop :=
  ∀ r, x.run = some r → y = r

theorem Within.of_run {ε α : Type} {x : ExceptT ε Option α} {y : Except ε α} (h : x.run = some y) :
    Within x y := by
  intro r hr
  rw [h] at hr
  exact Option.some.inj hr

theorem Within.bind {ε α β : Type} {x : ExceptT ε Option α} {y : Except ε α}
    {next : α → ExceptT ε Option β} {next' : α → Except ε β} (h : Within x y)
    (hnext : ∀ a, Within (next a) (next' a)) : Within (x >>= next) (y >>= next') := by
  intro r hr
  rw [ExceptT.run_bind] at hr
  obtain ⟨first, hfirst, hr⟩ := Option.bind_eq_some_iff.mp hr
  rw [h first hfirst]
  match first with
  | .error e =>
    cases hr
    rfl
  | .ok a => exact hnext a r hr

theorem Within.foldlM {ε α σ : Type} {g : σ → α → ExceptT ε Option σ} {g' : σ → α → Except ε σ}
    (h : ∀ s a, Within (g s a) (g' s a)) : ∀ {as : List α} {s : σ},
    Within (as.foldlM g s) (as.foldlM g' s)
  | [], _ => .of_run rfl
  | a :: as, s => by
    rw [List.foldlM_cons, List.foldlM_cons]
    exact (h s a).bind fun s' => Within.foldlM h

/-- As far as it is not cut short, the search is that of `resolve_folder`. -/
theorem visitCoder_within : ∀ (depth coder : ℕ) (st : List DfsMark × List ℕ),
    Within (visitCoderWithin f depth coder st) (visitCoder f depth coder st)
  | 0, _, _ => fun _ h => by cases h
  | depth + 1, coder, (marks, order) => by
    have hinput : ∀ st slot,
        Within (visitInputWithin f depth coder st slot) (visitInput f depth coder st slot) := by
      intro st slot
      unfold visitInputWithin visitInput
      cases f.bindPairs.find? fun p => p.inIndex == f.inBase coder + slot with
      | none => exact .of_run rfl
      | some pair =>
        dsimp only
        cases f.coderOfOut pair.outIndex with
        | none => exact .of_run rfl
        | some producer => exact visitCoder_within depth producer st
    have hloop : Within
        ((List.range (numInAt f coder)).foldlM (visitInputWithin f depth coder)
            (marks.set coder .inProgress, order) >>=
          fun st => pure (st.1.set coder .done, st.2 ++ [coder]))
        ((List.range (numInAt f coder)).foldlM (visitInput f depth coder)
            (marks.set coder .inProgress, order) >>=
          fun st => .ok (st.1.set coder .done, st.2 ++ [coder])) :=
      (Within.foldlM hinput).bind fun st => .of_run rfl
    rw [visitCoderWithin_succ]
    unfold visitCoder
    rcases marks[coder]? with _ | _ | _ | _
    · exact hloop
    · exact hloop
    · exact .of_run rfl
    · exact .of_run rfl

/-! ### What a parsed folder has -/

/-- A parsed coder has outputs. -/
theorem numOut_pos_of_readCoder {b : Build} {r r' : ByteReader} {coder : Coder}
    (h : readCoder b r = .ok (coder, r')) : 0 < coder.numOut := by
  unfold readCoder at h
  obtain ⟨flags, r₁, -, h⟩ := Parser.bind_eq_ok.mp h
  obtain ⟨-, h⟩ := Parser.guard_eq_ok.mp h
  obtain ⟨codec, r₂, -, h⟩ := Parser.bind_eq_ok.mp h
  -- the end of the parser keeps the arity
  have hend : ∀ {numIn numOut : ℕ} {props : List Byte} {r : ByteReader}, (do
      let method ← liftM (classifyMethod b codec props)
      if method = .bcj2 ∧ (numIn ≠ 4 ∨ numOut ≠ 1) then
        malformed "7z: BCJ2 junction must have four inputs and one output"
      pure (⟨method, numIn, numOut⟩ : Coder) : Parse Coder) r = .ok (coder, r') →
        coder.numOut = numOut := by
    intro numIn numOut props r h
    obtain ⟨method, r₅, -, h⟩ := Parser.bind_eq_ok.mp h
    obtain ⟨-, h⟩ := Parser.guard_eq_ok.mp h
    cases h
    rfl
  by_cases hcomplex : flags.toNat / 0x10 % 2 ≠ 0
  · rw [if_pos hcomplex] at h
    obtain ⟨numIn, r₃, -, h⟩ := Parser.bind_eq_ok.mp h
    obtain ⟨numOut, r₄, -, h⟩ := Parser.bind_eq_ok.mp h
    obtain ⟨left, r₅, -, h⟩ := Parser.bind_eq_ok.mp h
    obtain ⟨-, h⟩ := Parser.guard_eq_ok.mp h
    obtain ⟨hzero, h⟩ := Parser.guard_eq_ok.mp h
    obtain ⟨⟨_, _⟩, r₆, hpair, h⟩ := Parser.bind_eq_ok.mp h
    cases hpair
    dsimp only at h
    have hpos : 0 < numOut := Nat.pos_of_ne_zero fun h => hzero (.inr h)
    split_ifs at h with hprops
    · obtain ⟨propSize, r₇, -, h⟩ := Parser.bind_eq_ok.mp h
      obtain ⟨props, r₈, -, h⟩ := Parser.bind_eq_ok.mp h
      exact hend h ▸ hpos
    · obtain ⟨props, r₇, -, h⟩ := Parser.bind_eq_ok.mp h
      exact hend h ▸ hpos
  · rw [if_neg hcomplex] at h
    obtain ⟨⟨_, _⟩, r₃, hpair, h⟩ := Parser.bind_eq_ok.mp h
    cases hpair
    dsimp only at h
    split_ifs at h with hprops
    · obtain ⟨propSize, r₇, -, h⟩ := Parser.bind_eq_ok.mp h
      obtain ⟨props, r₈, -, h⟩ := Parser.bind_eq_ok.mp h
      exact hend h ▸ Nat.one_pos
    · obtain ⟨props, r₇, -, h⟩ := Parser.bind_eq_ok.mp h
      exact hend h ▸ Nat.one_pos

theorem numOut_pos_of_readFolder {b : Build} {r r' : ByteReader}
    (h : readFolder b r = .ok (f, r')) : ∀ coder ∈ f.coders, 0 < coder.numOut := by
  unfold readFolder at h
  obtain ⟨numCoders, r₁, -, h⟩ := Parser.bind_eq_ok.mp h
  obtain ⟨-, h⟩ := Parser.guard_eq_ok.mp h
  obtain ⟨left, r₂, -, h⟩ := Parser.bind_eq_ok.mp h
  obtain ⟨-, h⟩ := Parser.guard_eq_ok.mp h
  obtain ⟨coders, r₃, hcoders, h⟩ := Parser.bind_eq_ok.mp h
  obtain ⟨-, h⟩ := Parser.guard_eq_ok.mp h
  obtain ⟨left', r₄, -, h⟩ := Parser.bind_eq_ok.mp h
  obtain ⟨-, h⟩ := Parser.guard_eq_ok.mp h
  obtain ⟨bindPairs, r₅, -, h⟩ := Parser.bind_eq_ok.mp h
  obtain ⟨-, h⟩ := Parser.guard_eq_ok.mp h
  obtain ⟨packedIndices, r₆, -, h⟩ := Parser.bind_eq_ok.mp h
  cases h
  intro coder hmem
  obtain ⟨before, after, hread⟩ := Parser.exists_of_mem_times hcoders hmem
  exact numOut_pos_of_readCoder hread

/-- There are fewer bind pairs than outputs, so that one is left. -/
theorem exists_finalOutIndex (hpairs : f.bindPairs.length + 1 = f.totalOut) :
    ∃ final, f.finalOutIndex = .ok final := by
  unfold Folder.finalOutIndex
  cases hfind : (List.range f.totalOut).find?
      fun out => !(f.bindPairs.any fun p => p.outIndex == out) with
  | some final => exact ⟨final, rfl⟩
  | none =>
    have hsub : List.range f.totalOut ⊆ f.bindPairs.map BindPair.outIndex := by
      intro out hout
      have hbound := List.find?_eq_none.mp hfind out hout
      simp only [Bool.not_eq_true, Bool.not_eq_false', List.any_eq_true, beq_iff_eq] at hbound
      obtain ⟨pair, hmem, rfl⟩ := hbound
      exact List.mem_map_of_mem hmem
    have hle := (List.nodup_range.subperm hsub).length_le
    rw [List.length_range, List.length_map] at hle
    omega

/-! ### The outcome -/

theorem streams_of_resolveFolder (h : resolveFolder f = .ok order) : Streams f :=
  have hr := resolved_of_resolveFolder h
  ⟨hr.pairs, hr.packed, hr.fed, hr.consumed⟩

/-- With its streams in order a folder is searched. -/
theorem resolveFolder_eq (hs : Streams f) {final sink : ℕ} (hfinal : f.finalOutIndex = .ok final)
    (hsink : f.coderOfOut final = some sink) :
    resolveFolder f = (visitCoder f (f.coders.length + 1) sink
      (List.replicate f.coders.length .unvisited, [])).map Prod.snd := by
  have hpairs : (f.bindPairs.any fun p =>
      decide (f.totalIn ≤ p.inIndex ∨ f.totalOut ≤ p.outIndex)) = false := by
    rw [List.any_eq_false]
    intro pair hmem
    have := hs.pairs pair hmem
    simp only [decide_eq_true_eq]
    omega
  have hpacked : (f.packedIndices.any fun p => decide (f.totalIn ≤ p)) = false := by
    rw [List.any_eq_false]
    intro input hmem
    have := hs.packed input hmem
    simp only [decide_eq_true_eq]
    omega
  have hfed : ((inSources f).any (· != 1)) = false := by
    rw [List.any_eq_false]
    intro count hmem
    obtain ⟨input, hinput, rfl⟩ := List.mem_map.mp hmem
    rw [hs.fed input (List.mem_range.mp hinput)]
    decide
  have hconsumed : ((outConsumers f).any fun n => decide (1 < n)) = false := by
    rw [List.any_eq_false]
    intro count hmem
    obtain ⟨out, hout, rfl⟩ := List.mem_map.mp hmem
    have := hs.consumed out (List.mem_range.mp hout)
    simp only [decide_eq_true_eq]
    omega
  unfold resolveFolder
  rw [hpairs, hpacked, hfed, hconsumed, hfinal]
  simp only [Bool.false_eq_true, if_false, ok_bind]
  rw [hsink]
  dsimp only [okOr]
  rw [ok_bind]
  cases visitCoder f (f.coders.length + 1) sink (List.replicate f.coders.length .unvisited, []) <;>
    rfl

/-- What a resolved folder rests on: the coder of the final output, from which the search starts. -/
structure Rooted (f : Folder) (sink : ℕ) : Prop where
  final : ∃ out, f.finalOutIndex = .ok out ∧ f.coderOfOut out = some sink
  isFinal : Final f sink
  unique : ∀ coder, Final f coder → coder = sink
  lt : sink < f.coders.length
  needed : ∀ coder < f.coders.length, coder ≠ sink →
    ∃ consumer < f.coders.length, Feeds f coder consumer

theorem rooted_of_read {b : Build} {r r' : ByteReader} (hread : readFolder b r = .ok (f, r'))
    (hs : Streams f) : ∃ sink, Rooted f sink := by
  have hpairs := pairs_of_readFolder hread
  obtain ⟨final, hfinal⟩ := exists_finalOutIndex hpairs
  obtain ⟨hlt, hfree⟩ := free_of_finalOutIndex hfinal
  obtain ⟨sink, hsink⟩ := exists_coderOfOut hlt
  have hconsumed : ∀ out < f.totalOut, out ≠ final → ∃ pair ∈ f.bindPairs, pair.outIndex = out :=
    fun out hout hne => consumed_of_ne_free hpairs (fun pair hmem => (hs.pairs pair hmem).2)
      hs.consumed hlt hfree hout hne
  refine ⟨sink, ⟨final, hfinal, hsink⟩, ⟨final, hlt, hfree, hsink⟩, ?_, coderOfOut_lt hsink, ?_⟩
  · rintro coder ⟨out, hout, hunbound, hcoder⟩
    by_cases heq : out = final
    · subst heq
      exact Option.some.inj (hcoder.symm.trans hsink)
    · obtain ⟨pair, hmem, hpair⟩ := hconsumed out hout heq
      exact absurd hpair (hunbound pair hmem)
  · intro coder hcoder hne
    have hget := List.getElem?_eq_getElem hcoder
    obtain ⟨hbase, hout⟩ := coderOfOut_base hget
      (numOut_pos_of_readFolder hread _ (List.getElem_mem hcoder))
    have hother : outBase f coder ≠ final := by
      intro heq
      rw [heq] at hbase
      exact hne (Option.some.inj (hbase.symm.trans hsink))
    obtain ⟨pair, hmem, hpair⟩ := hconsumed _ hout hother
    obtain ⟨consumer, slot, hslot, hin⟩ := exists_owner (hs.pairs pair hmem).1
    refine ⟨consumer, ?_, pair, hmem, by rw [hpair]; exact hbase, slot, hslot, hin⟩
    by_contra hge
    rw [numInAt, List.getElem?_eq_none (Nat.le_of_not_lt hge)] at hslot
    exact absurd hslot (Nat.not_lt_zero _)

/-- The search of a rooted folder. -/
def search (f : Folder) (sink : ℕ) : Except DepthFirst.Stop (List ℕ) :=
  visit (producers f) (f.coders.length + 1) [] sink []

section Rooted

variable {sink : ℕ} (hs : Streams f) (hroot : Rooted f sink)

theorem closed_range : ∀ v ∈ Finset.range f.coders.length, ∀ d ∈ producers f v,
    d ∈ Finset.range f.coders.length :=
  fun _ _ _ hd => Finset.mem_range.mpr (producers_lt hd)

include hroot in
theorem search_ne_depth : search f sink ≠ .error .depth :=
  DepthFirst.visit_ne_depth closed_range List.nodup_nil (fun _ hx => absurd hx List.not_mem_nil)
    (Finset.mem_range.mpr hroot.lt) (by rw [Finset.card_range]; simp)

include hs hroot in
/-- The search is not cut short. -/
theorem visitCoderWithin_start : ∃ r, (visitCoderWithin f (f.coders.length + 1) sink
      (List.replicate f.coders.length .unvisited, [])).run = some r ∧
    resolveFolder f = r.map Prod.snd ∧
    ∀ order, r.map Prod.snd = .ok order ↔ search f sink = .ok order := by
  obtain ⟨final, hfinal, hsink⟩ := hroot.final
  have hwithin := @visitCoderWithin_eq f hs (f.coders.length + 1) [] sink [] hroot.lt
  rw [marksOf_nil] at hwithin
  have hne := search_ne_depth hroot
  have hagree := visitCoder_within (f := f) (f.coders.length + 1) sink
    (List.replicate f.coders.length .unvisited, [])
  rw [resolveFolder_eq hs hfinal hsink]
  unfold search at hne ⊢
  match hvisit : visit (producers f) (f.coders.length + 1) [] sink [] with
  | .ok order =>
    rw [hvisit] at hwithin
    refine ⟨_, congrArg ExceptT.run hwithin, ?_, fun order' => ?_⟩
    · rw [hagree _ (congrArg ExceptT.run hwithin)]
    · exact ⟨fun h => by cases h; rfl, fun h => by cases h; rfl⟩
  | .error .cycle =>
    rw [hvisit] at hwithin
    refine ⟨_, congrArg ExceptT.run hwithin, ?_, fun order' => ?_⟩
    · rw [hagree _ (congrArg ExceptT.run hwithin)]
    · exact ⟨nofun, nofun⟩
  | .error .depth => exact absurd hvisit hne

include hs hroot in
theorem resolveFolder_eq_search : resolveFolder f = .ok order ↔ search f sink = .ok order := by
  obtain ⟨r, -, heq, hiff⟩ := visitCoderWithin_start hs hroot
  rw [heq]
  exact hiff order

include hs hroot in
/-- **A folder is resolved exactly if no cycle leads to the coder of its final output.** -/
theorem resolveFolder_eq_ok_iff : (∃ order, resolveFolder f = .ok order) ↔
    ∀ coder, ReflTransGen (Feeds f) coder sink → ¬ TransGen (Feeds f) coder coder := by
  have hiff := DepthFirst.visit_eq_ok_iff closed_range (Finset.mem_range.mpr hroot.lt)
  rw [Finset.card_range] at hiff
  simp only [resolveFolder_eq_search hs hroot, search]
  rw [hiff]
  simp only [reaches_iff hs, cycle_iff hs]

include hs hroot in
/-- The order has the coders that lead to the final output, dependencies first. -/
theorem order_of_resolveFolder (h : resolveFolder f = .ok order) :
    DepthFirst.Ordered (producers f) order ∧
      ∀ coder, coder ∈ order ↔ ReflTransGen (Feeds f) coder sink := by
  obtain ⟨hordered, hmem⟩ :=
    DepthFirst.search_eq_ok ((resolveFolder_eq_search hs hroot).mp h)
  refine ⟨hordered, fun coder => ?_⟩
  rw [hmem, reaches_iff hs]

include hs hroot in
/-- Without cycles every coder leads to the final output. -/
theorem leads_of_acyclic (hacyclic : Acyclic f) (hlt : coder < f.coders.length) :
    ReflTransGen (Feeds f) coder sink := by
  rw [← reaches_iff hs]
  by_contra hapart
  have hneeded : ∀ v ∈ Finset.range f.coders.length, v ≠ sink →
      ∃ c ∈ Finset.range f.coders.length, Depends (producers f) c v := by
    intro v hv hne
    obtain ⟨consumer, hconsumer, hfeeds⟩ := hroot.needed v (Finset.mem_range.mp hv) hne
    exact ⟨consumer, Finset.mem_range.mpr hconsumer, (depends_iff hs).mpr hfeeds⟩
  obtain ⟨x, hcycle, -⟩ :=
    DepthFirst.exists_cycle_apart hneeded (Finset.mem_range.mpr hlt) hapart
  exact hacyclic x ((cycle_iff hs).mp hcycle)

end Rooted

/-- Every coder of the order comes after those that feed it. -/
def DependenciesFirst (f : Folder) (order : List ℕ) : Prop :=
  ∀ before coder after, order = before ++ coder :: after →
    ∀ producer, Feeds f producer coder → producer ∈ before

/-- **Resolving a folder accepts exactly the acyclic graphs whose streams are in order**, after a
search that comes to its end, and puts all of their coders in order. -/
structure ResolvesExactly (f : Folder) : Prop where
  terminates : Streams f → ∃ final sink, f.finalOutIndex = .ok final ∧
    f.coderOfOut final = some sink ∧
    ∃ r, (visitCoderWithin f (f.coders.length + 1) sink
      (List.replicate f.coders.length .unvisited, [])).run = some r ∧
    resolveFolder f = r.map Prod.snd
  accepts : (∃ order, resolveFolder f = .ok order) ↔ Streams f ∧ Acyclic f
  sorts : ∀ order, resolveFolder f = .ok order →
    order.Perm (List.range f.coders.length) ∧ DependenciesFirst f order

/-- **A parsed folder is resolved as it should be if and only if its cycles, if it has any, can be
found**: its streams are not in order, or it has no cycle, or one leads to the coder of the final
output. -/
theorem resolves_exactly_iff {b : Build} {r r' : ByteReader} (hread : readFolder b r = .ok (f, r')) :
    ResolvesExactly f ↔ (Streams f → ¬ Acyclic f → ∃ coder sink, Final f sink ∧
      TransGen (Feeds f) coder coder ∧ ReflTransGen (Feeds f) coder sink) := by
  constructor
  · intro h hs hcyclic
    obtain ⟨sink, hroot⟩ := rooted_of_read hread hs
    have hnot : ¬ ∃ order, resolveFolder f = .ok order := fun hok => hcyclic (h.accepts.mp hok).2
    rw [resolveFolder_eq_ok_iff hs hroot] at hnot
    push Not at hnot
    obtain ⟨coder, hleads, hcycle⟩ := hnot
    exact ⟨coder, sink, hroot.isFinal, hcycle, hleads⟩
  · intro hfound
    have hacyclic : ∀ {order}, resolveFolder f = .ok order → Acyclic f := by
      intro order hok
      have hs := streams_of_resolveFolder hok
      obtain ⟨sink, hroot⟩ := rooted_of_read hread hs
      by_contra hcyclic
      obtain ⟨coder, sink', hfinal, hcycle, hleads⟩ := hfound hs hcyclic
      rw [hroot.unique sink' hfinal] at hleads
      exact (resolveFolder_eq_ok_iff hs hroot).mp ⟨order, hok⟩ coder hleads hcycle
    refine ⟨fun hs => ?_, ⟨?_, ?_⟩, fun order hok => ⟨?_, ?_⟩⟩
    · obtain ⟨sink, hroot⟩ := rooted_of_read hread hs
      obtain ⟨final, hfinal, hsink⟩ := hroot.final
      obtain ⟨r, hrun, heq, -⟩ := visitCoderWithin_start hs hroot
      exact ⟨final, sink, hfinal, hsink, r, hrun, heq⟩
    · rintro ⟨order, hok⟩
      exact ⟨streams_of_resolveFolder hok, hacyclic hok⟩
    · rintro ⟨hs, hnone⟩
      obtain ⟨sink, hroot⟩ := rooted_of_read hread hs
      exact (resolveFolder_eq_ok_iff hs hroot).mpr fun coder _ => hnone coder
    · have hs := streams_of_resolveFolder hok
      obtain ⟨sink, hroot⟩ := rooted_of_read hread hs
      obtain ⟨hordered, hmem⟩ := order_of_resolveFolder hs hroot hok
      rw [List.perm_ext_iff_of_nodup hordered.nodup List.nodup_range]
      intro coder
      rw [hmem, List.mem_range]
      refine ⟨fun hleads => ?_, leads_of_acyclic hs hroot (hacyclic hok)⟩
      rcases ReflTransGen.cases_head hleads with rfl | ⟨next, hfeeds, -⟩
      · exact hroot.lt
      · obtain ⟨pair, -, hcoder, -⟩ := hfeeds
        exact coderOfOut_lt hcoder
    · have hs := streams_of_resolveFolder hok
      obtain ⟨sink, hroot⟩ := rooted_of_read hread hs
      intro before coder after heq producer hfeeds
      exact ((order_of_resolveFolder hs hroot hok).1 before coder after heq).2 producer
        ((depends_iff hs).mpr hfeeds)

theorem resolves_exactly_twoFilters : ResolvesExactly twoFilters :=
  (resolves_exactly_iff twoFilters_read).mpr fun _ hcyclic => absurd twoFilters_acyclic hcyclic

/-- **A cycle beside the coder of the final output is accepted.** -/
theorem not_resolves_exactly_selfFed : ¬ ∀ {b : Build} {r r' : ByteReader} {f : Folder},
    readFolder b r = .ok (f, r') → ResolvesExactly f := by
  intro h
  have hread : readFolder {} { rest := [2, 4, 3, 3, 5, 1, 4, 3, 3, 5, 1, 0, 0] } =
    .ok (selfFed, { pos := 13, rest := [] }) := by decide +kernel
  have hresolve : resolveFolder selfFed = .ok [1] := by decide +kernel
  exact absurd ((h hread).sorts [1] hresolve).1.length_eq (by decide)

end LibarchiveOxide.SevenZip.Resolving
