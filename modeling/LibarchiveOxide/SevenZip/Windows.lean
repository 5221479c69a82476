import LibarchiveOxide.SevenZip.Header

/-! # Windows of content files

The windows of the files of a folder follow each other from zero (`assembleFiles_consecutive`), and
each folder's windows have at most the size of the folder. Since the totals agree, they have exactly
that size (`windows_tile`). All of this needs the files to be read against the table of folders that
is kept, and the substreams against the folders they are of. -/

namespace LibarchiveOxide.SevenZip.Windows

open Core.Failure Core.Budget Lib SevenZip.Wire SevenZip.Graph SevenZip.Streams SevenZip.Header
open SevenZip.Sections

/-! ### Tiling -/

/-- Windows, as offsets and sizes, that follow each other from `start` to `stop`. -/
def Consecutive : ℕ → List (ℕ × ℕ) → ℕ → Prop
  | start, [], stop => start = stop
  | start, (offset, size) :: ws, stop => offset = start ∧ Consecutive (start + size) ws stop

instance : ∀ start ws stop, Decidable (Consecutive start ws stop)
  | start, [], stop => inferInstanceAs (Decidable (start = stop))
  | start, (offset, size) :: ws, stop =>
    have := instDecidableConsecutive (start + size) ws stop
    inferInstanceAs (Decidable (offset = start ∧ Consecutive (start + size) ws stop))

/-- The windows of the content files of a folder, in file order. -/
def windowsOf (i : ℕ) (files : List FileRec) : List (ℕ × ℕ) :=
  (files.filter fun f => f.hasStream && f.folderIndex == some i).map fun f => (f.streamOffset, f.size)

/-- Every content file is in a folder of the table, and the windows of each folder cover it without
a gap or an overlap. -/
def Tiled (files : List FileRec) (folders : List FolderInfo) : Prop :=
  (∀ f ∈ files, f.hasStream = true → ∃ i < folders.length, f.folderIndex = some i) ∧
    ∀ i < folders.length, Consecutive 0 (windowsOf i files) ((folders.map FolderInfo.unpackSize).getD i 0)

instance (files : List FileRec) (folders : List FolderInfo) : Decidable (Tiled files folders) :=
  inferInstanceAs (Decidable (_ ∧ _))

/-- The bytes of a list of windows. -/
def span (ws : List (ℕ × ℕ)) : ℕ := (ws.map Prod.snd).sum

/-! ### Assembly -/

/-- The offset at which the next window of a folder starts. -/
def startOf (c : Cursor) (k : ℕ) : ℕ := if c.currentFolder = some k then c.running else 0

/-- The substreams that are left come in folder order, from the current folder on. -/
def Sorted (c : Cursor) : Prop :=
  (c.flat.map Prod.fst).Pairwise (· ≤ ·) ∧
    ∀ j, c.currentFolder = some j → ∀ i ∈ c.flat.map Prod.fst, j ≤ i

/-- The sizes of the substreams of a folder. -/
def flatBytes (k : ℕ) (flat : List (ℕ × ℕ × Option UInt32)) : ℕ :=
  ((flat.filter fun s => s.1 == k).map fun s => s.2.1).sum

/-- One record: it has no stream, or it takes the next substream at the offset of its folder. -/
theorem assembleFile_cases {st : FilesState} {i : ℕ} {c c' : Cursor} {f : FileRec}
    (h : assembleFile st i c = .ok (f, c')) :
    (f.hasStream = false ∧ c'.flat = c.flat ∧ c'.running = c.running ∧
      c'.currentFolder = c.currentFolder) ∨
    ∃ fi size crc, c.flat = (fi, size, crc) :: c'.flat ∧ f.hasStream = true ∧
      f.folderIndex = some fi ∧ f.streamOffset = startOf c fi ∧ f.size = size ∧
      c'.running = startOf c fi + size ∧ c'.currentFolder = some fi := by
  unfold assembleFile at h
  by_cases he : st.emptyStream.getD i false = true
  · rw [if_pos he] at h
    cases h
    exact .inl ⟨rfl, rfl, rfl, rfl⟩
  · rw [if_neg he] at h
    split at h
    · cases h
    next fi size crc flat hflat =>
    dsimp only at h
    split at h
    · cases h
    next running hrun =>
    cases h
    obtain ⟨rfl, -⟩ := checkedAdd_eq_some.mp hrun
    exact .inr ⟨fi, size, crc, hflat, rfl, rfl, rfl, rfl, rfl, rfl⟩

theorem Sorted.next {c c' : Cursor} (hs : Sorted c) {fi size : ℕ} {crc : Option UInt32}
    (hflat : c.flat = (fi, size, crc) :: c'.flat) (hcur : c'.currentFolder = some fi) :
    Sorted c' ∧ ∀ j, c.currentFolder = some j → j ≠ fi → ∀ i ∈ c'.flat.map Prod.fst, j ≠ i := by
  obtain ⟨h1, h2⟩ := hs
  rw [hflat, List.map_cons] at h1 h2
  rw [List.pairwise_cons] at h1
  refine ⟨⟨h1.2, fun j hj i hi => ?_⟩, fun j hj hne i hi => ?_⟩
  · rw [hcur] at hj
    cases hj
    exact h1.1 i hi
  · have hle := h2 j hj fi List.mem_cons_self
    have hle' := h1.1 i hi
    dsimp only at hle hle'
    omega

theorem windowsOf_cons_of_not {i : ℕ} {f : FileRec} (h : f.hasStream = false ∨ f.folderIndex ≠ some i)
    (files : List FileRec) : windowsOf i (f :: files) = windowsOf i files := by
  unfold windowsOf
  rw [List.filter_cons_of_neg]
  rcases h with h | h
  · simp [h]
  · simp [h]

theorem windowsOf_cons {i : ℕ} {f : FileRec} (h : f.hasStream = true) (hi : f.folderIndex = some i)
    (files : List FileRec) :
    windowsOf i (f :: files) = (f.streamOffset, f.size) :: windowsOf i files := by
  unfold windowsOf
  rw [List.filter_cons_of_pos (by simp [h, hi]), List.map_cons]

/-- Files take no window of a folder that has no substream left. -/
theorem windowsOf_eq_nil {st : FilesState} {k : ℕ} : ∀ {n i : ℕ} {c : Cursor} {files : List FileRec},
    assembleFiles st n i c = .ok files → (∀ j ∈ c.flat.map Prod.fst, k ≠ j) → windowsOf k files = []
  | 0, _, _, _, h, _ => by
    cases h
    rfl
  | n + 1, i, c, files, h, hk => by
    obtain ⟨⟨f, c'⟩, hf, h⟩ := Result.bind_eq_ok.mp h
    obtain ⟨more, hm, h⟩ := Result.bind_eq_ok.mp h
    cases h
    rcases assembleFile_cases hf with ⟨hs, hflat, -⟩ | ⟨fi, size, crc, hflat, -, hfi, -⟩
    · rw [windowsOf_cons_of_not (.inl hs), windowsOf_eq_nil hm (by rw [hflat]; exact hk)]
    · rw [hflat] at hk
      rw [windowsOf_cons_of_not, windowsOf_eq_nil hm fun j hj => hk j (List.mem_cons_of_mem _ hj)]
      rw [hfi]
      exact .inr fun he => hk fi List.mem_cons_self (Option.some.inj he).symm

/-- **The windows of a folder follow each other**, from where the cursor is in that folder. -/
theorem assembleFiles_consecutive {st : FilesState} (k : ℕ) : ∀ {n i : ℕ} {c : Cursor}
    {files : List FileRec}, assembleFiles st n i c = .ok files → Sorted c →
    Consecutive (startOf c k) (windowsOf k files) (startOf c k + span (windowsOf k files))
  | 0, _, _, _, h, _ => by
    cases h
    simp [windowsOf, Consecutive, span]
  | n + 1, i, c, files, h, hs => by
    obtain ⟨⟨f, c'⟩, hf, h⟩ := Result.bind_eq_ok.mp h
    obtain ⟨more, hm, h⟩ := Result.bind_eq_ok.mp h
    cases h
    rcases assembleFile_cases hf with ⟨hno, hflat, hrun, hcur⟩ |
      ⟨fi, size, crc, hflat, hyes, hfi, hoff, hsize, hrun, hcur⟩
    · have hs' : Sorted c' := by
        unfold Sorted
        rw [hflat, hcur]
        exact hs
      have hst : startOf c' k = startOf c k := by
        unfold startOf
        rw [hrun, hcur]
      rw [windowsOf_cons_of_not (.inl hno), ← hst]
      exact assembleFiles_consecutive k hm hs'
    · obtain ⟨hs', hgone⟩ := hs.next hflat hcur
      by_cases hk : fi = k
      · subst hk
        have ih := assembleFiles_consecutive fi hm hs'
        have hst : startOf c' fi = startOf c fi + size := by
          unfold startOf
          rw [hcur, if_pos rfl, hrun, startOf]
        rw [windowsOf_cons hyes hfi, hoff, hsize]
        refine ⟨rfl, ?_⟩
        rw [hst] at ih
        simpa [span, Nat.add_assoc] using ih
      · rw [windowsOf_cons_of_not (.inr (by rw [hfi]; simpa using hk))]
        by_cases hc : c.currentFolder = some k
        · -- the folder is left behind: no substream of it is in the rest
          rw [windowsOf_eq_nil hm (hgone k hc (Ne.symm hk))]
          simp [Consecutive, span]
        · have hst : startOf c k = startOf c' k := by
            unfold startOf
            rw [if_neg hc, if_neg]
            rw [hcur]
            simpa using hk
          rw [hst]
          exact assembleFiles_consecutive k hm hs'

/-- The windows of a folder come from its substreams. -/
theorem span_windowsOf_le {st : FilesState} (k : ℕ) : ∀ {n i : ℕ} {c : Cursor}
    {files : List FileRec}, assembleFiles st n i c = .ok files →
    span (windowsOf k files) ≤ flatBytes k c.flat
  | 0, _, _, _, h => by
    cases h
    simp [windowsOf, span]
  | n + 1, i, c, files, h => by
    obtain ⟨⟨f, c'⟩, hf, h⟩ := Result.bind_eq_ok.mp h
    obtain ⟨more, hm, h⟩ := Result.bind_eq_ok.mp h
    cases h
    have ih := span_windowsOf_le k hm
    rcases assembleFile_cases hf with ⟨hno, hflat, -⟩ | ⟨fi, size, crc, hflat, hyes, hfi, -, hsize, -⟩
    · rw [windowsOf_cons_of_not (.inl hno), ← hflat]
      exact ih
    · by_cases hk : fi = k
      · subst hk
        rw [windowsOf_cons hyes hfi, hflat, hsize]
        simpa [span, flatBytes] using ih
      · rw [windowsOf_cons_of_not (.inr (by rw [hfi]; simpa using hk)), hflat]
        refine ih.trans (le_of_eq ?_)
        simp [flatBytes, hk]

/-- Content files are in the folders of the substreams. -/
theorem folderIndex_of_assembleFiles {st : FilesState} : ∀ {n i : ℕ} {c : Cursor}
    {files : List FileRec}, assembleFiles st n i c = .ok files → ∀ f ∈ files, f.hasStream = true →
    ∃ k ∈ c.flat.map Prod.fst, f.folderIndex = some k
  | 0, _, _, _, h, f, hf, _ => by
    cases h
    cases hf
  | n + 1, i, c, files, h, f, hf, hstream => by
    obtain ⟨⟨g, c'⟩, hg, h⟩ := Result.bind_eq_ok.mp h
    obtain ⟨more, hm, h⟩ := Result.bind_eq_ok.mp h
    cases h
    rcases assembleFile_cases hg with ⟨hno, hflat, -⟩ | ⟨fi, size, crc, hflat, -, hfi, -⟩
    · rcases List.mem_cons.mp hf with rfl | hf
      · rw [hno] at hstream
        cases hstream
      · rw [← hflat]
        exact folderIndex_of_assembleFiles hm f hf hstream
    · rw [hflat, List.map_cons]
      rcases List.mem_cons.mp hf with rfl | hf
      · exact ⟨fi, List.mem_cons_self, hfi⟩
      · obtain ⟨k, hk, hfk⟩ := folderIndex_of_assembleFiles hm f hf hstream
        exact ⟨k, List.mem_cons_of_mem _ hk, hfk⟩

/-! ### The substreams of the folders -/

/-- No folder has more bytes in its substreams than it has. -/
def FoldersFit (folders : List FolderInfo) : Prop :=
  ∀ f ∈ folders, f.substreamSizes.sum ≤ f.unpackSize

/-- The substreams of the folders from index `n` on. -/
def flatFrom (n : ℕ) (folders : List FolderInfo) : List (ℕ × ℕ × Option UInt32) :=
  (folders.zipIdx n).flatMap fun f =>
    (f.1.substreamSizes.zip f.1.substreamCrcs).map fun s => (f.2, s.1, s.2)

theorem flatFrom_cons (n : ℕ) (f : FolderInfo) (folders : List FolderInfo) :
    flatFrom n (f :: folders) =
      (f.substreamSizes.zip f.substreamCrcs).map (fun s => (n, s.1, s.2)) ++
        flatFrom (n + 1) folders := by
  simp [flatFrom]

theorem mem_flatFrom : ∀ {n : ℕ} {folders : List FolderInfo} {i : ℕ},
    i ∈ (flatFrom n folders).map Prod.fst → n ≤ i ∧ i < n + folders.length
  | n, [], i, h => by simp [flatFrom] at h
  | n, f :: folders, i, h => by
    rw [flatFrom_cons, List.map_append, List.mem_append] at h
    rw [List.length_cons]
    rcases h with h | h
    · simp only [List.map_map, List.mem_map, Function.comp_apply] at h
      obtain ⟨_, -, rfl⟩ := h
      omega
    · have := mem_flatFrom h
      omega

theorem pairwise_flatFrom : ∀ (n : ℕ) (folders : List FolderInfo),
    ((flatFrom n folders).map Prod.fst).Pairwise (· ≤ ·)
  | n, [] => by simp [flatFrom]
  | n, f :: folders => by
    rw [flatFrom_cons, List.map_append, List.pairwise_append]
    refine ⟨?_, pairwise_flatFrom (n + 1) folders, fun i hi j hj => ?_⟩
    · rw [List.map_map, List.pairwise_map]
      exact List.pairwise_of_forall fun _ _ => le_rfl
    · simp only [List.map_map, List.mem_map, Function.comp_apply] at hi
      obtain ⟨_, -, rfl⟩ := hi
      have := mem_flatFrom hj
      omega

theorem flatBytes_append (k : ℕ) (l l' : List (ℕ × ℕ × Option UInt32)) :
    flatBytes k (l ++ l') = flatBytes k l + flatBytes k l' := by
  simp [flatBytes]

theorem flatBytes_of_not_mem {k : ℕ} {l : List (ℕ × ℕ × Option UInt32)}
    (h : k ∉ l.map Prod.fst) : flatBytes k l = 0 := by
  unfold flatBytes
  rw [List.filter_eq_nil_iff.mpr]
  · rfl
  · intro s hs he
    exact h (List.mem_map.mpr ⟨s, hs, by simpa using he⟩)

theorem sum_zip_le : ∀ (sizes : List ℕ) (crcs : List (Option UInt32)),
    ((sizes.zip crcs).map Prod.fst).sum ≤ sizes.sum
  | [], _ => by simp
  | _ :: _, [] => by simp
  | s :: sizes, c :: crcs => by
    have := sum_zip_le sizes crcs
    simp only [List.zip_cons_cons, List.map_cons, List.sum_cons]
    omega

/-- The substreams of a folder have at most its size. -/
theorem flatBytes_flatFrom_le : ∀ {n : ℕ} {folders : List FolderInfo} (k : ℕ), FoldersFit folders →
    flatBytes (n + k) (flatFrom n folders) ≤ (folders.map FolderInfo.unpackSize).getD k 0
  | n, [], k, _ => by simp [flatFrom, flatBytes]
  | n, f :: folders, 0, h => by
    have hgone : n + 0 ∉ (flatFrom (n + 1) folders).map Prod.fst := fun hm => by
      have := mem_flatFrom hm
      omega
    rw [flatFrom_cons, flatBytes_append, flatBytes_of_not_mem hgone]
    have hf := h f List.mem_cons_self
    have hz := sum_zip_le f.substreamSizes f.substreamCrcs
    have he : flatBytes (n + 0) ((f.substreamSizes.zip f.substreamCrcs).map fun s => (n, s.1, s.2)) =
        ((f.substreamSizes.zip f.substreamCrcs).map Prod.fst).sum := by
      simp [flatBytes, List.filter_map, Function.comp_def]
    rw [he]
    simpa using hz.trans hf
  | n, f :: folders, k + 1, h => by
    have hgone : n + (k + 1) ∉
        ((f.substreamSizes.zip f.substreamCrcs).map fun s => (n, s.1, s.2)).map Prod.fst := by
      intro hm
      simp only [List.map_map, List.mem_map, Function.comp_apply] at hm
      obtain ⟨_, -, he⟩ := hm
      omega
    rw [flatFrom_cons, flatBytes_append, flatBytes_of_not_mem hgone, Nat.zero_add,
      show n + (k + 1) = n + 1 + k by omega, List.map_cons, List.getD_cons_succ]
    exact flatBytes_flatFrom_le k fun g hg => h g (List.mem_cons_of_mem _ hg)

/-! ### The totals -/

variable {b : Build}

theorem checkedSum_eq_some : ∀ {l : List ℕ} {t : ℕ}, checkedSum l = some t → t = l.sum
  | [], t, h => by
    cases h
    rfl
  | n :: l, t, h => by
    obtain ⟨s, hs, h⟩ := Option.bind_eq_some_iff.mp h
    obtain ⟨rfl, -⟩ := checkedAdd_eq_some.mp h
    rw [List.sum_cons, checkedSum_eq_some hs]

theorem sum_range_getD : ∀ l : List ℕ, ∑ i ∈ Finset.range l.length, l.getD i 0 = l.sum
  | [] => rfl
  | n :: l => by
    rw [List.length_cons, Finset.sum_range_succ', List.sum_cons]
    simp only [List.getD_cons_succ, List.getD_cons_zero]
    rw [sum_range_getD l, Nat.add_comm]

/-- The content is the windows of all folders. -/
theorem sum_span_windowsOf {n : ℕ} : ∀ {files : List FileRec},
    (∀ f ∈ files, f.hasStream = true → ∃ i < n, f.folderIndex = some i) →
    ∑ i ∈ Finset.range n, span (windowsOf i files) =
      ((files.filter FileRec.hasStream).map FileRec.size).sum
  | [], _ => by simp [windowsOf, span]
  | f :: files, h => by
    have ih := sum_span_windowsOf (n := n) fun g hg => h g (List.mem_cons_of_mem _ hg)
    by_cases hs : f.hasStream = true
    · obtain ⟨k, hk, hf⟩ := h f List.mem_cons_self hs
      have he : ∀ i ∈ Finset.range n, span (windowsOf i (f :: files)) =
          (if i = k then f.size else 0) + span (windowsOf i files) := by
        intro i _
        by_cases hi : i = k
        · subst hi
          rw [windowsOf_cons hs hf, if_pos rfl]
          simp [span]
        · rw [windowsOf_cons_of_not (.inr (by rw [hf]; simpa using Ne.symm hi)), if_neg hi,
            Nat.zero_add]
      rw [Finset.sum_congr rfl he, Finset.sum_add_distrib, ih, List.filter_cons_of_pos hs,
        List.map_cons, List.sum_cons, Finset.sum_ite_eq' (Finset.range n) k,
        if_pos (Finset.mem_range.mpr hk)]
    · rw [List.filter_cons_of_neg hs, ← ih]
      refine Finset.sum_congr rfl fun i _ => ?_
      rw [windowsOf_cons_of_not (.inl (by simpa using hs))]

theorem validate_totals {files : List FileRec} {folders : List FolderInfo} {limits : Limits}
    (h : validateSeekLayout b files folders limits = .ok ()) :
    ((files.filter FileRec.hasStream).map FileRec.size).sum =
      (folders.map FolderInfo.unpackSize).sum := by
  unfold validateSeekLayout at h
  obtain ⟨-, h⟩ := Result.guard_eq_ok.mp h
  obtain ⟨_, -, h⟩ := Result.bind_eq_ok.mp h
  obtain ⟨-, h⟩ := Result.guard_eq_ok.mp h
  obtain ⟨tu, hu, h⟩ := Result.bind_eq_ok.mp h
  obtain ⟨-, h⟩ := Result.guard_eq_ok.mp h
  obtain ⟨tc, hc, h⟩ := Result.bind_eq_ok.mp h
  have hu' := checkedSum_eq_some (okOr_eq_ok.mp hu)
  have hc' := checkedSum_eq_some (okOr_eq_ok.mp hc)
  split_ifs at h with hne
  rw [← hu', ← hc']
  simpa using hne

section Assembled

variable {st : FilesState} {n i : ℕ} {files : List FileRec} {folders : List FolderInfo}

/-- Content files are in folders of the table. -/
theorem folderIndex_lt (h : assembleFiles st n i { flat := flatSubstreams folders } = .ok files) :
    ∀ f ∈ files, f.hasStream = true → ∃ k < folders.length, f.folderIndex = some k := by
  intro f hf hs
  obtain ⟨k, hk, hfk⟩ := folderIndex_of_assembleFiles h f hf hs
  have hk' : k ∈ (flatFrom 0 folders).map Prod.fst := hk
  have := mem_flatFrom hk'
  exact ⟨k, by omega, hfk⟩

/-- The windows of a folder have its size, when the totals agree. -/
theorem span_windowsOf (hfit : FoldersFit folders)
    (h : assembleFiles st n i { flat := flatSubstreams folders } = .ok files)
    (htotal : ((files.filter FileRec.hasStream).map FileRec.size).sum =
      (folders.map FolderInfo.unpackSize).sum) {k : ℕ} (hk : k < folders.length) :
    span (windowsOf k files) = (folders.map FolderInfo.unpackSize).getD k 0 := by
  have hle : ∀ k ∈ Finset.range folders.length,
      span (windowsOf k files) ≤ (folders.map FolderInfo.unpackSize).getD k 0 := by
    intro k _
    have h1 := span_windowsOf_le k h
    have h2 := flatBytes_flatFrom_le (n := 0) k hfit
    rw [Nat.zero_add] at h2
    exact h1.trans h2
  have hsum : ∑ k ∈ Finset.range folders.length, span (windowsOf k files) =
      ∑ k ∈ Finset.range folders.length, (folders.map FolderInfo.unpackSize).getD k 0 := by
    have hr := sum_range_getD (folders.map FolderInfo.unpackSize)
    rw [List.length_map] at hr
    rw [sum_span_windowsOf (folderIndex_lt h), htotal, hr]
  exact (Finset.sum_eq_sum_iff_of_le hle).mp hsum k (Finset.mem_range.mpr hk)

/-- **Files read against folders that fit tile them** when the totals agree. -/
theorem tiled_of_assemble (hfit : FoldersFit folders)
    (h : assembleFiles st n i { flat := flatSubstreams folders } = .ok files)
    (htotal : ((files.filter FileRec.hasStream).map FileRec.size).sum =
      (folders.map FolderInfo.unpackSize).sum) : Tiled files folders := by
  refine ⟨folderIndex_lt h, fun k hk => ?_⟩
  have hcons := assembleFiles_consecutive k h ⟨pairwise_flatFrom 0 folders, nofun⟩
  rw [span_windowsOf hfit h htotal hk] at hcons
  simpa [startOf] using hcons

end Assembled

/-! ### Reading the substreams -/

variable {r r' : ByteReader} {unpack : List ℕ} {sizes : List (List ℕ)}
  {crcs : List (List (Option UInt32))} {folderCrcs : List (Option UInt32)}

/-- The sizes of each folder have at most the folder's size. -/
def SizesFit (sizes : List (List ℕ)) (unpack : List ℕ) : Prop :=
  List.Forall₂ (fun s u => s.sum ≤ u) sizes unpack

theorem readSizes_sum : ∀ {n start : ℕ} {r r' : ByteReader} {sizes : List ℕ} {sum : ℕ},
    readSizes n start r = .ok ((sizes, sum), r') → sum = start + sizes.sum
  | 0, _, _, _, _, _, h => by
    cases h
    simp
  | n + 1, start, r, r', sizes, sum, h => by
    obtain ⟨size, r1, -, h⟩ := Parser.bind_eq_ok.mp h
    cases hnext : checkedAdd start size with
    | none => rw [hnext] at h; cases h
    | some next =>
    rw [hnext] at h
    obtain ⟨rfl, -⟩ := checkedAdd_eq_some.mp hnext
    obtain ⟨⟨more, t⟩, r2, hm, h⟩ := Parser.bind_eq_ok.mp h
    cases h
    rw [readSizes_sum hm, List.sum_cons, Nat.add_assoc]

theorem folderSizes_sum {count folderSize : ℕ} {sizes : List ℕ}
    (h : folderSizes count folderSize r = .ok (sizes, r')) : sizes.sum ≤ folderSize := by
  unfold folderSizes at h
  split_ifs at h with hc
  · cases h
    simp
  · obtain ⟨left, r1, -, h⟩ := Parser.bind_eq_ok.mp h
    obtain ⟨-, h⟩ := Parser.guard_eq_ok.mp h
    obtain ⟨⟨stored, sum⟩, r2, hs, h⟩ := Parser.bind_eq_ok.mp h
    obtain ⟨hle, h⟩ := Parser.guard_eq_ok.mp h
    cases h
    have := readSizes_sum hs
    rw [List.sum_append, List.sum_singleton]
    omega

theorem allSizes_fit : ∀ {counts unpack : List ℕ} {r r' : ByteReader} {sizes : List (List ℕ)},
    counts.length = unpack.length → allSizes (counts.zip unpack) r = .ok (sizes, r') →
    SizesFit sizes unpack
  | [], [], _, _, _, _, h => by
    cases h
    exact .nil
  | count :: counts, u :: unpack, r, r', sizes, hlen, h => by
    obtain ⟨s, r1, hs, h⟩ := Parser.bind_eq_ok.mp h
    obtain ⟨more, r2, hm, h⟩ := Parser.bind_eq_ok.mp h
    cases h
    exact .cons (folderSizes_sum hs) (allSizes_fit (by simpa using hlen) hm)

theorem defaultSizes_fit : ∀ {counts unpack : List ℕ} {r r' : ByteReader} {sizes : List (List ℕ)},
    counts.length = unpack.length → defaultSizes (counts.zip unpack) r = .ok (sizes, r') →
    SizesFit sizes unpack
  | [], [], _, _, _, _, h => by
    cases h
    exact .nil
  | count :: counts, u :: unpack, r, r', sizes, hlen, h => by
    obtain ⟨s, r1, hs, h⟩ := Parser.bind_eq_ok.mp h
    obtain ⟨more, r2, hm, h⟩ := Parser.bind_eq_ok.mp h
    cases h
    refine .cons ?_ (defaultSizes_fit (by simpa using hlen) hm)
    match count, hs with
    | 0, hs =>
      cases hs
      simp
    | 1, hs =>
      cases hs
      simp

/-- What the substream loop keeps. -/
def SubFit (unpack : List ℕ) (st : SubState) : Prop :=
  st.counts.length = unpack.length ∧ ∀ sizes, st.sizes = some sizes → SizesFit sizes unpack

theorem subLoop_fit {crcs : List (Option UInt32)} : ∀ {fuel : ℕ}
    {st st' : SubState} {r r' : ByteReader}, subLoop unpack crcs fuel st r = .ok (st', r') →
    SubFit unpack st → SubFit unpack st'
  | 0, _, _, _, _, h, _ => by cases h
  | fuel + 1, st, st', r, r', h, hfit => by
    obtain ⟨property, r1, -, h⟩ := Parser.bind_eq_ok.mp h
    split_ifs at h
    · cases h
      exact hfit
    · obtain ⟨counts, r2, hc, h⟩ := Parser.bind_eq_ok.mp h
      exact subLoop_fit h ⟨Parser.length_times hc, hfit.2⟩
    · obtain ⟨sizes, r2, hs, h⟩ := Parser.bind_eq_ok.mp h
      refine subLoop_fit h ⟨hfit.1, fun sizes' he => ?_⟩
      cases he
      exact allSizes_fit hfit.1 hs
    · obtain ⟨digests, r2, -, h⟩ := Parser.bind_eq_ok.mp h
      exact subLoop_fit h hfit
    · cases h

theorem parseSubstreamsInfo_fit
    (h : parseSubstreamsInfo unpack folderCrcs r = .ok ((sizes, crcs), r')) :
    SizesFit sizes unpack := by
  obtain ⟨left, r1, -, h⟩ := Parser.bind_eq_ok.mp h
  obtain ⟨st, r2, hl, h⟩ := Parser.bind_eq_ok.mp h
  have hfit : SubFit unpack st := subLoop_fit hl ⟨List.length_replicate .., nofun⟩
  obtain ⟨sizes', r3, hs, h⟩ := Parser.bind_eq_ok.mp h
  obtain ⟨_, r4, -, h⟩ := Parser.bind_eq_ok.mp h
  cases h
  unfold storedSizes at hs
  cases he : st.sizes with
  | some stored =>
    rw [he] at hs
    cases hs
    exact hfit.2 _ he
  | none =>
    rw [he] at hs
    exact defaultSizes_fit hfit.1 hs

/-! ### The digests of the substreams -/

/-- A single substream has the digest of its folder, if that has one. -/
def Reuses (crcs : List (List (Option UInt32))) (folderCrcs : List (Option UInt32)) : Prop :=
  ∀ k l e, crcs[k]? = some l → crcOf folderCrcs k = some e → l.length = 1 → l = [some e]

theorem getElem?_withCrcs (counts : List ℕ) (folderCrcs : List (Option UInt32)) (k : ℕ) :
    (withCrcs counts folderCrcs)[k]? = (counts[k]?).map fun n => (n, crcOf folderCrcs k) := by
  unfold withCrcs
  rw [List.getElem?_map, List.getElem?_zipIdx, Option.map_map, Nat.zero_add]
  rfl

theorem distribute_single : ∀ {counts : List (ℕ × Option UInt32)} {digests : List (Option UInt32)}
    {k : ℕ} {l : List (Option UInt32)}, (distribute counts digests)[k]? = some l →
    ∃ n crc, counts[k]? = some (n, crc) ∧ ∀ e, crc = some e → l.length = 1 → l = [some e]
  | [], _, _, _, h => by cases h
  | (n, crc) :: counts, digests, k, l, h => by
    unfold distribute at h
    by_cases ha : already n crc = true
    · rw [if_pos ha] at h
      cases k with
      | zero =>
        cases h
        refine ⟨n, crc, rfl, fun e he _ => ?_⟩
        rw [he]
      | succ k => exact @distribute_single counts _ k _ (by simpa using h)
    · rw [if_neg ha] at h
      cases k with
      | zero =>
        cases h
        refine ⟨n, crc, rfl, fun e he hlen => ?_⟩
        rw [List.length_map, List.length_range] at hlen
        subst hlen
        rw [he] at ha
        exact absurd rfl ha
      | succ k => exact @distribute_single counts _ k _ (by simpa using h)

theorem reuses_distribute (counts : List ℕ) (folderCrcs : List (Option UInt32))
    (digests : List (Option UInt32)) :
    Reuses (distribute (withCrcs counts folderCrcs) digests) folderCrcs := by
  intro k l e hl he hlen
  obtain ⟨n, crc, hk, hall⟩ := distribute_single hl
  rw [getElem?_withCrcs] at hk
  obtain ⟨n', -, hn'⟩ := Option.map_eq_some_iff.mp hk
  cases hn'
  exact hall e he hlen

theorem reuses_defaultCrcs (counts : List ℕ) (folderCrcs : List (Option UInt32)) :
    Reuses (defaultCrcs (withCrcs counts folderCrcs)) folderCrcs := by
  intro k l e hl he hlen
  unfold defaultCrcs at hl
  rw [List.getElem?_map, getElem?_withCrcs, Option.map_map] at hl
  obtain ⟨n, -, rfl⟩ := Option.map_eq_some_iff.mp hl
  dsimp only [Function.comp_apply] at hlen ⊢
  rw [he] at hlen ⊢
  by_cases ha : already n (some e) = true
  · rw [if_pos ha]
  · rw [if_neg ha, List.length_replicate] at hlen
    subst hlen
    exact absurd rfl ha

theorem subLoop_reuses : ∀ {fuel : ℕ}
    {st st' : SubState} {r r' : ByteReader}, subLoop unpack folderCrcs fuel st r = .ok (st', r') →
    (∀ crcs, st.crcs = some crcs → Reuses crcs folderCrcs) →
    ∀ crcs, st'.crcs = some crcs → Reuses crcs folderCrcs
  | 0, _, _, _, _, h, _ => by cases h
  | fuel + 1, st, st', r, r', h, hst => by
    obtain ⟨property, r1, -, h⟩ := Parser.bind_eq_ok.mp h
    split_ifs at h
    · cases h
      exact hst
    · obtain ⟨counts, r2, -, h⟩ := Parser.bind_eq_ok.mp h
      exact subLoop_reuses h hst
    · obtain ⟨sizes, r2, -, h⟩ := Parser.bind_eq_ok.mp h
      exact subLoop_reuses h hst
    · obtain ⟨digests, r2, -, h⟩ := Parser.bind_eq_ok.mp h
      refine subLoop_reuses h fun crcs he => ?_
      cases he
      exact reuses_distribute _ _ _
    · cases h

theorem parseSubstreamsInfo_reuses
    (h : parseSubstreamsInfo unpack folderCrcs r = .ok ((sizes, crcs), r')) :
    Reuses crcs folderCrcs := by
  obtain ⟨left, r1, -, h⟩ := Parser.bind_eq_ok.mp h
  obtain ⟨st, r2, hl, h⟩ := Parser.bind_eq_ok.mp h
  have hst := subLoop_reuses hl nofun
  obtain ⟨sizes', r3, -, h⟩ := Parser.bind_eq_ok.mp h
  obtain ⟨_, r4, -, h⟩ := Parser.bind_eq_ok.mp h
  cases h
  cases he : st.crcs with
  | some stored => exact hst stored he
  | none => exact reuses_defaultCrcs _ _

/-! ### Reading the streams -/

variable {st' : StreamsState}

/-- The substreams read so far are those of the folders read so far. -/
structure StreamsFit (st : StreamsState) : Prop where
  sizes : ∀ sizes, st.substreamSizes = some sizes →
    ∃ unpack, folderUnpackSizes st.graphs st.outputSizesAll = .ok unpack ∧ SizesFit sizes unpack
  crcs : ∀ crcs, st.substreamCrcs = some crcs → Reuses crcs st.folderCrcs
  both : st.substreamSizes = none → st.substreamCrcs = none

theorem streamsFit_new : StreamsFit {} := ⟨nofun, nofun, fun _ => rfl⟩

theorem parsePackInfo_frame {st : StreamsState} (h : parsePackInfo st r = .ok (st', r')) :
    ∃ packPos packSizes,
      st' = { st with packPos := packPos, packSizes := packSizes } := by
  obtain ⟨_, r1, -, h⟩ := Parser.bind_eq_ok.mp h
  obtain ⟨_, r2, -, h⟩ := Parser.bind_eq_ok.mp h
  obtain ⟨_, r3, -, h⟩ := Parser.bind_eq_ok.mp h
  obtain ⟨-, h⟩ := Parser.guard_eq_ok.mp h
  obtain ⟨_, r4, -, h⟩ := Parser.bind_eq_ok.mp h
  cases h
  exact ⟨_, _, rfl⟩

theorem parseUnpackInfo_frame {st : StreamsState} (h : parseUnpackInfo b st r = .ok (st', r')) :
    st'.substreamSizes = st.substreamSizes ∧ st'.substreamCrcs = st.substreamCrcs := by
  obtain ⟨_, r1, -, h⟩ := Parser.bind_eq_ok.mp h
  obtain ⟨-, h⟩ := Parser.guard_eq_ok.mp h
  obtain ⟨_, r2, -, h⟩ := Parser.bind_eq_ok.mp h
  obtain ⟨_, r3, -, h⟩ := Parser.bind_eq_ok.mp h
  obtain ⟨-, h⟩ := Parser.guard_eq_ok.mp h
  obtain ⟨_, r4, -, h⟩ := Parser.bind_eq_ok.mp h
  obtain ⟨-, h⟩ := Parser.guard_eq_ok.mp h
  obtain ⟨_, r5, -, h⟩ := Parser.bind_eq_ok.mp h
  obtain ⟨_, r6, -, h⟩ := Parser.bind_eq_ok.mp h
  obtain ⟨-, h⟩ := Parser.guard_eq_ok.mp h
  obtain ⟨_, r7, -, h⟩ := Parser.bind_eq_ok.mp h
  obtain ⟨-, h⟩ := Parser.guard_eq_ok.mp h
  obtain ⟨_, r8, -, h⟩ := Parser.bind_eq_ok.mp h
  obtain ⟨_, r9, -, h⟩ := Parser.bind_eq_ok.mp h
  obtain ⟨_, r10, -, h⟩ := Parser.bind_eq_ok.mp h
  cases h
  exact ⟨rfl, rfl⟩

theorem parseSubstreams_fit {st : StreamsState} (h : parseSubstreams st r = .ok (st', r')) :
    StreamsFit st' := by
  obtain ⟨unpack, r1, hu, h⟩ := Parser.bind_eq_ok.mp h
  obtain ⟨⟨sizes, crcs⟩, r2, hs, h⟩ := Parser.bind_eq_ok.mp h
  have hu' := (Parser.lift_eq_ok.mp hu).1
  cases h
  refine ⟨fun sizes' he => ?_, fun crcs' he => ?_, nofun⟩
  · cases he
    exact ⟨unpack, hu', parseSubstreamsInfo_fit hs⟩
  · cases he
    exact parseSubstreamsInfo_reuses hs

/-- The blocks that are left define no folders once there are substreams. -/
def Pending (st : StreamsState) (blocks : List Block) : Prop :=
  (st.substreamSizes ≠ none → .unpack ∉ blocks) ∧ BlocksInOrder blocks

/-- **The streams loop** keeps the substreams those of the folders, if its blocks are in order. -/
theorem streamsLoop_fit : ∀ {fuel : ℕ} {st st' : StreamsState} {r r' rb : ByteReader}
    {blocks : List Block}, streamsLoop b fuel st r = .ok (st', r') →
    blocksLoop b fuel st r = .ok (blocks, rb) → Pending st blocks → StreamsFit st → StreamsFit st'
  | 0, _, _, _, _, _, _, h, _, _, _ => by cases h
  | fuel + 1, st, st', r, r', rb, blocks, h, hb, hp, hfit => by
    obtain ⟨property, r1, hu, h⟩ := Parser.bind_eq_ok.mp h
    rw [blocksLoop, Parser.bind_of_ok hu] at hb
    split_ifs at h hb
    · cases h
      exact hfit
    · obtain ⟨st1, r2, hx, h⟩ := Parser.bind_eq_ok.mp h
      rw [Parser.bind_of_ok hx] at hb
      obtain ⟨more, r3, hm, hb⟩ := Parser.bind_eq_ok.mp hb
      cases hb
      obtain ⟨packPos, packSizes, rfl⟩ := parsePackInfo_frame hx
      refine streamsLoop_fit h hm ⟨fun hne hmem => ?_, (List.pairwise_cons.mp hp.2).2⟩
        ⟨hfit.sizes, hfit.crcs, hfit.both⟩
      exact hp.1 hne (List.mem_cons_of_mem _ hmem)
    · obtain ⟨st1, r2, hx, h⟩ := Parser.bind_eq_ok.mp h
      rw [Parser.bind_of_ok hx] at hb
      obtain ⟨more, r3, hm, hb⟩ := Parser.bind_eq_ok.mp hb
      cases hb
      obtain ⟨hs, hc⟩ := parseUnpackInfo_frame hx
      have hnone : st.substreamSizes = none := by
        by_contra hne
        exact hp.1 hne List.mem_cons_self
      rw [hnone] at hs
      rw [hfit.both hnone] at hc
      refine streamsLoop_fit h hm ⟨fun hne => absurd hs hne, (List.pairwise_cons.mp hp.2).2⟩
        ⟨fun sizes he => ?_, fun crcs he => ?_, fun _ => hc⟩
      · rw [hs] at he
        cases he
      · rw [hc] at he
        cases he
    · obtain ⟨st1, r2, hx, h⟩ := Parser.bind_eq_ok.mp h
      rw [Parser.bind_of_ok hx] at hb
      obtain ⟨more, r3, hm, hb⟩ := Parser.bind_eq_ok.mp hb
      cases hb
      obtain ⟨hno, hrest⟩ := List.pairwise_cons.mp hp.2
      exact streamsLoop_fit h hm ⟨fun _ hmem => hno _ hmem rfl rfl, hrest⟩ (parseSubstreams_fit hx)
    · cases h

theorem SizesFit.getD (h : SizesFit sizes unpack) :
    ∀ i, (sizes.getD i []).sum ≤ unpack.getD i 0 := by
  induction h with
  | nil => intro i; simp
  | cons hs _ ih =>
    intro i
    cases i with
    | zero => simpa using hs
    | succ i => simpa using ih i

theorem assemble_fit (hfit : SizesFit sizes unpack) :
    ∀ {graphs : List Folder} {index running : ℕ} {packs outputs : List ℕ}
    {folders : List FolderInfo},
    assemble unpack sizes crcs graphs index running packs outputs = .ok folders →
    FoldersFit folders
  | [], _, _, _, _, _, h => by
    cases h
    exact nofun
  | graph :: graphs, index, running, packs, outputs, folders, h => by
    obtain ⟨_, -, h⟩ := Result.bind_eq_ok.mp h
    obtain ⟨_, -, h⟩ := Result.bind_eq_ok.mp h
    obtain ⟨more, hm, h⟩ := Result.bind_eq_ok.mp h
    cases h
    intro f hf
    rcases List.mem_cons.mp hf with rfl | hf
    · exact hfit.getD index
    · exact assemble_fit hfit hm f hf

/-- What `finish_streams` assembles its folders from. -/
theorem finishStreams_ok {st : StreamsState} {folders : List FolderInfo}
    (h : finishStreams st = .ok folders) : ∃ unpack packs base,
      folderUnpackSizes st.graphs st.outputSizesAll = .ok unpack ∧
      assemble unpack (st.substreamSizes.getD (unpack.map fun size => [size]))
        (st.substreamCrcs.getD (st.folderCrcs.map fun crc => [crc])) st.graphs 0 base packs
        st.outputSizesAll = .ok folders := by
  obtain ⟨-, h⟩ := Result.guard_eq_ok.mp h
  obtain ⟨-, h⟩ := Result.guard_eq_ok.mp h
  obtain ⟨-, h⟩ := Result.guard_eq_ok.mp h
  obtain ⟨unpack, hu, h⟩ := Result.bind_eq_ok.mp h
  obtain ⟨packs, -, h⟩ := Result.bind_eq_ok.mp h
  obtain ⟨-, h⟩ := Result.guard_eq_ok.mp h
  obtain ⟨-, h⟩ := Result.guard_eq_ok.mp h
  obtain ⟨-, h⟩ := Result.guard_eq_ok.mp h
  obtain ⟨base, -, h⟩ := Result.bind_eq_ok.mp h
  exact ⟨unpack, packs, base, hu, h⟩

theorem finishStreams_fit {st : StreamsState} {folders : List FolderInfo} (hfit : StreamsFit st)
    (h : finishStreams st = .ok folders) : FoldersFit folders := by
  obtain ⟨unpack, _, _, hu, h⟩ := finishStreams_ok h
  refine assemble_fit ?_ h
  cases hs : st.substreamSizes with
  | none =>
    rw [Option.getD_none]
    unfold SizesFit
    rw [List.forall₂_map_left_iff, List.forall₂_same]
    intro u _
    simp
  | some sizes =>
    obtain ⟨unpack', hu', hf⟩ := hfit.sizes sizes hs
    rw [hu] at hu'
    cases hu'
    exact hf

theorem parseStreamsInfo_fit {rb : ByteReader} {folders : List FolderInfo} {blocks : List Block}
    (h : parseStreamsInfo b r = .ok (folders, r')) (hb : streamsBlocks b r = .ok (blocks, rb))
    (hord : BlocksInOrder blocks) : FoldersFit folders := by
  obtain ⟨left, r1, hl, h⟩ := Parser.bind_eq_ok.mp h
  rw [streamsBlocks, Parser.bind_of_ok hl] at hb
  obtain ⟨st, r2, hs, h⟩ := Parser.bind_eq_ok.mp h
  have hfit : StreamsFit st := streamsLoop_fit hs hb ⟨fun hne => absurd rfl hne, hord⟩ streamsFit_new
  exact finishStreams_fit hfit (Parser.lift_eq_ok.mp h).1

/-! ### Reading the header -/

/-- Files read against the table of folders that is kept. -/
def Placed (h : HeaderParser) : Prop :=
  ∃ st n i, assembleFiles st n i { flat := flatSubstreams h.folders } = .ok h.files

theorem parseFilesInfo_placed {folders : List FolderInfo} {files : List FileRec}
    {exts : List Core.Metadata.Extension} (h : parseFilesInfo folders r = .ok ((files, exts), r')) :
    ∃ st n i, assembleFiles st n i { flat := flatSubstreams folders } = .ok files := by
  obtain ⟨numFiles, r1, -, h⟩ := Parser.bind_eq_ok.mp h
  obtain ⟨-, h⟩ := Parser.guard_eq_ok.mp h
  obtain ⟨left, r2, -, h⟩ := Parser.bind_eq_ok.mp h
  obtain ⟨-, h⟩ := Parser.guard_eq_ok.mp h
  obtain ⟨⟨st, exts'⟩, r3, -, h⟩ := Parser.bind_eq_ok.mp h
  obtain ⟨files', r4, hf, h⟩ := Parser.bind_eq_ok.mp h
  cases h
  exact ⟨st, numFiles, 0, (Parser.lift_eq_ok.mp hf).1⟩

/-- Behind the files there are only properties. -/
theorem headerLoop_properties : ∀ {fuel : ℕ} {h h' : HeaderParser}
    {r r' rt : ByteReader} {tags : List Section}, headerLoop b fuel h r = .ok (h', r') →
    sectionsLoop b fuel h.folders r = .ok (tags, rt) → (∀ t ∈ tags, t = .properties) →
    h'.files = h.files ∧ h'.folders = h.folders
  | 0, _, _, _, _, _, _, hl, _, _ => by cases hl
  | fuel + 1, h, h', r, r', rt, tags, hl, ht, hall => by
    obtain ⟨property, r1, hu, hl⟩ := Parser.bind_eq_ok.mp hl
    rw [sectionsLoop, Parser.bind_of_ok hu] at ht
    split_ifs at hl ht
    · cases hl
      exact ⟨rfl, rfl⟩
    · obtain ⟨left, r2, hx, hl⟩ := Parser.bind_eq_ok.mp hl
      rw [Parser.bind_of_ok hx] at ht
      obtain ⟨exts, r3, hy, hl⟩ := Parser.bind_eq_ok.mp hl
      rw [Parser.bind_of_ok hy] at ht
      obtain ⟨more, r4, hm, ht⟩ := Parser.bind_eq_ok.mp ht
      cases ht
      have ih := headerLoop_properties hl hm fun t hmem => hall t (List.mem_cons_of_mem _ hmem)
      exact ih
    · obtain ⟨_, _, -, ht⟩ := Parser.bind_eq_ok.mp ht
      obtain ⟨_, _, -, ht⟩ := Parser.bind_eq_ok.mp ht
      obtain ⟨_, _, -, ht⟩ := Parser.bind_eq_ok.mp ht
      obtain ⟨_, _, -, ht⟩ := Parser.bind_eq_ok.mp ht
      obtain ⟨_, _, -, ht⟩ := Parser.bind_eq_ok.mp ht
      cases ht
      cases hall _ List.mem_cons_self
    · obtain ⟨_, _, -, ht⟩ := Parser.bind_eq_ok.mp ht
      obtain ⟨_, _, -, ht⟩ := Parser.bind_eq_ok.mp ht
      cases ht
      cases hall _ List.mem_cons_self
    · cases hl

/-- **The header loop**, up to the files: the folders fit, and the files are read against those that
are kept, if the sections are in order. -/
theorem headerLoop_placed : ∀ {fuel : ℕ} {h h' : HeaderParser} {r r' rt : ByteReader}
    {tags : List Section}, headerLoop b fuel h r = .ok (h', r') →
    sectionsLoop b fuel h.folders r = .ok (tags, rt) → InOrder tags → h.files = [] →
    FoldersFit h.folders → FoldersFit h'.folders ∧ Placed h'
  | 0, _, _, _, _, _, _, hl, _, _, _, _ => by cases hl
  | fuel + 1, h, h', r, r', rt, tags, hl, ht, hord, hnone, hfit => by
    obtain ⟨property, r1, hu, hl⟩ := Parser.bind_eq_ok.mp hl
    rw [sectionsLoop, Parser.bind_of_ok hu] at ht
    split_ifs at hl ht
    · cases hl
      exact ⟨hfit, .new 0, 0, 0, by rw [hnone]; rfl⟩
    · obtain ⟨left, r2, hx, hl⟩ := Parser.bind_eq_ok.mp hl
      rw [Parser.bind_of_ok hx] at ht
      obtain ⟨exts, r3, hy, hl⟩ := Parser.bind_eq_ok.mp hl
      rw [Parser.bind_of_ok hy] at ht
      obtain ⟨more, r4, hm, ht⟩ := Parser.bind_eq_ok.mp ht
      cases ht
      have ih := headerLoop_placed hl hm ⟨(List.pairwise_cons.mp hord.1).2,
        fun bl hbl => hord.2 bl (List.mem_cons_of_mem _ hbl)⟩ hnone hfit
      exact ih
    · obtain ⟨start, r2, hg, ht⟩ := Parser.bind_eq_ok.mp ht
      cases hg
      obtain ⟨blocks, r3, hb, ht⟩ := Parser.bind_eq_ok.mp ht
      obtain ⟨_, r4, hset, ht⟩ := Parser.bind_eq_ok.mp ht
      cases hset
      obtain ⟨folders, r5, hf, hl⟩ := Parser.bind_eq_ok.mp hl
      rw [Parser.bind_of_ok hf] at ht
      obtain ⟨more, r6, hm, ht⟩ := Parser.bind_eq_ok.mp ht
      cases ht
      exact headerLoop_placed hl hm ⟨(List.pairwise_cons.mp hord.1).2,
        fun bl hbl => hord.2 bl (List.mem_cons_of_mem _ hbl)⟩ hnone
        (parseStreamsInfo_fit hf hb (hord.2 _ List.mem_cons_self))
    · obtain ⟨⟨files, exts⟩, r2, hf, hl⟩ := Parser.bind_eq_ok.mp hl
      rw [Parser.bind_of_ok hf] at ht
      obtain ⟨more, r3, hm, ht⟩ := Parser.bind_eq_ok.mp ht
      cases ht
      obtain ⟨he, hfo⟩ := headerLoop_properties hl hm fun t hmem =>
        (List.pairwise_cons.mp hord.1).1 t hmem rfl
      unfold Placed
      rw [he, hfo]
      refine ⟨hfit, ?_⟩
      dsimp only
      rw [hnone, List.nil_append]
      exact parseFilesInfo_placed hf
    · cases hl

/-- **The windows of the content files tile their folders** in every header that is accepted and
whose sections are in order. -/
theorem windows_tile {b : Build} {header : List Byte} {h : HeaderParser} {r : ByteReader}
    {limits : Limits} {tags : List Section}
    (hparse : parseHeader b { rest := header } = .ok (h, r))
    (hvalid : validateSeekLayout b h.files h.folders limits = .ok ())
    (htags : sections b header = .ok tags) (hord : InOrder tags) : Tiled h.files h.folders := by
  have hl : headerLoop b header.length {} { rest := header } = .ok (h, r) := hparse
  unfold sections at htags
  rcases ht : sectionsLoop b header.length [] { rest := header } with e | ⟨tags', rt⟩
  · rw [ht] at htags
    cases htags
  rw [ht] at htags
  cases htags
  obtain ⟨hfit, st, n, i, hf⟩ := headerLoop_placed hl ht hord rfl nofun
  exact tiled_of_assemble hfit hf (validate_totals hvalid)

/-- A streams section with one folder of three bytes in two substreams, and a files section. -/
def orderedHeader : List Byte :=
  [0x04, 0x06, 0, 1, 0x09, 5, 0, 0x07, 0x0B, 1, 0, 1, 0x01, 0, 0x0C, 3, 0,
    0x08, 0x0D, 2, 0x09, 1, 0, 0, 0x05, 2, 0x11, 5, 0, 0, 0, 0, 0, 0, 0]

theorem windows_tile_ordered :
    ∃ h r, parseHeader {} { rest := orderedHeader } = .ok (h, r) ∧
      validateSeekLayout {} h.files h.folders .unlimited = .ok () ∧
      windowsOf 0 h.files = [(0, 1), (1, 2)] ∧ Tiled h.files h.folders :=
  ⟨_, _, rfl, by decide +kernel, by decide +kernel,
    @windows_tile {} orderedHeader _ _ .unlimited
      [.streams [.pack, .unpack, .substreams], .files] rfl (by decide +kernel)
      (by decide +kernel) (by decide)⟩

/-- A streams section with one folder of three bytes, a files section with one content file, and a
second streams section with two folders, of one and of two bytes. -/
def reorderedHeader : List Byte :=
  [0x04, 0x06, 0, 1, 0x09, 5, 0, 0x07, 0x0B, 1, 0, 1, 0x01, 0, 0x0C, 3, 0, 0,
    0x05, 1, 0x11, 3, 0, 0, 0, 0,
    0x04, 0x06, 0, 2, 0x09, 1, 1, 0, 0x07, 0x0B, 2, 0, 1, 0x01, 0, 1, 0x01, 0, 0x0C, 1, 2, 0, 0, 0]

/-- The header is accepted, and the window of its file is three bytes of a folder of one byte. -/
theorem not_tiled_reordered :
    ∃ h r, parseHeader {} { rest := reorderedHeader } = .ok (h, r) ∧
      validateSeekLayout {} h.files h.folders .unlimited = .ok () ∧
      windowsOf 0 h.files = [(0, 3)] ∧ h.folders.map FolderInfo.unpackSize = [1, 2] ∧
      ¬ Tiled h.files h.folders :=
  ⟨_, _, rfl, by decide +kernel, by decide +kernel, by decide +kernel, by decide +kernel⟩

end LibarchiveOxide.SevenZip.Windows
