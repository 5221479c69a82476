import LibarchiveOxide.SevenZip.Archive
import LibarchiveOxide.SevenZip.Skipping
import LibarchiveOxide.SevenZip.Windows

/-! # Stored digests

A run that passes every entry has compared the digest of every content file that it decoded
(`run_verified`), and has decoded their folders completely. So a stored digest is enforced where it is
the digest of a file: the digest of a folder where the folder has a single substream, and the digest
of a substream where the substream has a file. -/

namespace LibarchiveOxide.SevenZip.Digests

open Core.Failure Core.Metadata Core.Budget Lib Stream.Event SevenZip.Wire SevenZip.Graph
open SevenZip.Streams SevenZip.Header SevenZip.Sections SevenZip.Windows SevenZip.Reader
open SevenZip.Runs SevenZip.Opening SevenZip.Skipping SevenZip.Archive

/-! ### Runs -/

/-- A record stands in the content of its folder, and has its digest. -/
def Verified (env : Env) (record : FileRec) : Prop :=
  ∃ k content, record.folderIndex = some k ∧ env.decode k = .ok content ∧
    record.streamOffset + record.size ≤ content.length ∧
    ∀ e, record.crc = some e →
      env.crc32 ((content.drop record.streamOffset).take record.size) = e

variable {env : Env} {ch : Chunking} {r s t : SevenZSeekReader} {record : FileRec}
  {m : EntryMetadata} {choice : Choice} {choices : ℕ → Choice} {files : List FileRec}
  {folders : List FolderInfo} {i : ℕ} {body : Option (List Byte)}

variable {size : ℕ} {crc : Option UInt32}

/-- The record of a content file is that of the next substream, digest and all. -/
theorem assembleFile_crc {st : FilesState} {c c' : Cursor} {f : FileRec}
    (h : assembleFile st i c = .ok (f, c')) {k : ℕ} {rest : List (ℕ × ℕ × Option UInt32)}
    (hflat : c.flat = (k, size, crc) :: rest) (hstream : f.hasStream = true) : f.crc = crc := by
  unfold assembleFile at h
  by_cases he : st.emptyStream.getD i false = true
  · rw [if_pos he] at h
    cases h
    cases hstream
  · rw [if_neg he, hflat] at h
    dsimp only at h
    split at h
    · cases h
    · cases h
      rfl

/-- **The file of a substream** is at the offset that the substreams of the same folder before it
leave to it. -/
theorem assembleFiles_file {st : FilesState} {k : ℕ} {post : List (ℕ × ℕ × Option UInt32)} :
    ∀ {n i : ℕ} {c : Cursor} {files : List FileRec}
    {pre : List (ℕ × ℕ × Option UInt32)}, assembleFiles st n i c = .ok files → Sorted c →
    c.flat = pre ++ (k, size, crc) :: post → pre.length < (files.filter FileRec.hasStream).length →
    ∃ f ∈ files, f.hasStream = true ∧ f.folderIndex = some k ∧ f.size = size ∧ f.crc = crc ∧
      f.streamOffset = startOf c k + flatBytes k pre
  | 0, i, c, files, pre, h, hs, hflat, hlen => by
    cases h
    cases hlen
  | n + 1, i, c, files, pre, h, hs, hflat, hlen => by
    obtain ⟨⟨f, c'⟩, hf, h⟩ := Result.bind_eq_ok.mp h
    obtain ⟨more, hm, h⟩ := Result.bind_eq_ok.mp h
    cases h
    rcases assembleFile_cases hf with ⟨hno, hflat', hrun, hcur⟩ |
      ⟨fi, size', crc', hflat', hyes, hfi, hoff, hsize, hrun, hcur⟩
    · have hs' : Sorted c' := by
        unfold Sorted
        rw [hflat', hcur]
        exact hs
      have hst : startOf c' k = startOf c k := by
        unfold startOf
        rw [hrun, hcur]
      rw [List.filter_cons_of_neg (by rw [hno]; exact nofun)] at hlen
      obtain ⟨g, hg, hrest⟩ := assembleFiles_file hm hs' (by rw [hflat', hflat]) hlen
      rw [hst] at hrest
      exact ⟨g, List.mem_cons_of_mem _ hg, hrest⟩
    · obtain ⟨hs', hgone⟩ := hs.next hflat' hcur
      cases pre with
      | nil =>
        rw [List.nil_append] at hflat
        have hcrc := assembleFile_crc hf hflat hyes
        rw [hflat] at hflat'
        cases hflat'
        exact ⟨f, List.mem_cons_self, hyes, hfi, hsize, hcrc, by simpa [flatBytes] using hoff⟩
      | cons p pre =>
        rw [hflat] at hflat'
        obtain ⟨rfl, hrest⟩ := List.cons.inj hflat'
        rw [List.filter_cons_of_pos hyes, List.length_cons, List.length_cons] at hlen
        obtain ⟨g, hg, hgs, hgi, hgz, hgc, hgo⟩ :=
          assembleFiles_file hm hs' hrest.symm (by omega)
        refine ⟨g, List.mem_cons_of_mem _ hg, hgs, hgi, hgz, hgc, ?_⟩
        rw [hgo]
        by_cases hk : fi = k
        · subst hk
          have hst : startOf c' fi = startOf c fi + size' := by
            unfold startOf
            rw [hcur, if_pos rfl, hrun, startOf]
          rw [hst]
          simp [flatBytes, Nat.add_assoc]
        · have hst : startOf c' k = startOf c k := by
            unfold startOf
            have hne : c.currentFolder ≠ some k := fun hc =>
              absurd rfl (hgone k hc (Ne.symm hk) k (by rw [← hrest]; simp))
            rw [if_neg hne, if_neg]
            rw [hcur]
            simpa using hk
          rw [hst]
          simp [flatBytes, hk]

/-! ### Substreams -/

theorem flatBytes_map (n : ℕ) (l : List (ℕ × Option UInt32)) :
    flatBytes n (l.map fun s => (n, s.1, s.2)) = (l.map Prod.fst).sum := by
  simp [flatBytes, List.filter_map, Function.comp_def]

/-- Where the `j`th substream of a folder is among all substreams. -/
theorem flatFrom_split : ∀ {n : ℕ} {folders : List FolderInfo} {k : ℕ} {folder : FolderInfo}
    {j size : ℕ} {crc : Option UInt32}, folders[k]? = some folder →
    folder.substreamSizes[j]? = some size → folder.substreamCrcs[j]? = some crc →
    ∃ pre post, flatFrom n folders = pre ++ (n + k, size, crc) :: post ∧
      flatBytes (n + k) pre = (folder.substreamSizes.take j).sum
  | n, [], k, folder, j, size, crc, h, _, _ => by cases h
  | n, f :: folders, 0, folder, j, size, crc, h, hsize, hcrc => by
    obtain rfl : f = folder := by simpa using h
    have hzip : (f.substreamSizes.zip f.substreamCrcs)[j]? = some (size, crc) := by
      rw [List.getElem?_zip_eq_some]
      exact ⟨hsize, hcrc⟩
    obtain ⟨hj, hget⟩ := List.getElem?_eq_some_iff.mp hzip
    refine ⟨((f.substreamSizes.zip f.substreamCrcs).take j).map fun s => (n, s.1, s.2),
      ((f.substreamSizes.zip f.substreamCrcs).drop (j + 1)).map (fun s => (n, s.1, s.2)) ++
        flatFrom (n + 1) folders, ?_, ?_⟩
    · have hsplit := List.take_append_drop j (f.substreamSizes.zip f.substreamCrcs)
      rw [List.drop_eq_getElem_cons hj, hget] at hsplit
      rw [flatFrom_cons, Nat.add_zero]
      conv_lhs => rw [← hsplit]
      rw [List.map_append, List.map_cons, List.append_assoc, List.cons_append]
      rfl
    · rw [List.length_zip] at hj
      have hfst : ((f.substreamSizes.zip f.substreamCrcs).take j).map Prod.fst =
          f.substreamSizes.take j := by
        rw [List.zip, List.take_zipWith]
        refine List.map_fst_zip ?_
        rw [List.length_take, List.length_take]
        omega
      rw [← hfst, Nat.add_zero, flatBytes_map]
  | n, f :: folders, k + 1, folder, j, size, crc, h, hsize, hcrc => by
    have h' : folders[k]? = some folder := by simpa using h
    obtain ⟨pre, post, hflat, hbytes⟩ := flatFrom_split (n := n + 1) h' hsize hcrc
    rw [show n + 1 + k = n + (k + 1) by omega] at hflat hbytes
    refine ⟨(f.substreamSizes.zip f.substreamCrcs).map (fun s => (n, s.1, s.2)) ++ pre, post, ?_, ?_⟩
    · rw [flatFrom_cons, hflat, List.append_assoc]
    · rw [flatBytes_append, hbytes, flatBytes_of_not_mem, Nat.zero_add]
      intro hm
      simp only [List.map_map, List.mem_map, Function.comp_apply] at hm
      obtain ⟨_, -, he⟩ := hm
      omega

/-! ### Tables -/

/-- The tables of the last streams section of a header; the parsers are those of the header. -/
def tablesLoop (b : Build) : ℕ → List FolderInfo → StreamsState → Parse StreamsState
  | 0, _, _ => malformed "7z: unexpected end of header"
  | fuel + 1, folders, tables => do
    let property ← u8
    if property = kEnd then pure tables
    else if property = kArchiveProperties then do
      let left ← remaining
      let _ ← archivePropertiesLoop left []
      tablesLoop b fuel folders tables
    else if property = kMainStreamsInfo then do
      let left ← remaining
      let st ← streamsLoop b left {}
      let folders ← liftM (finishStreams st)
      tablesLoop b fuel folders st
    else if property = kFilesInfo then do
      let _ ← parseFilesInfo folders
      tablesLoop b fuel folders tables
    else unsupported "7z: unsupported header property"

/-- The tables of the last streams section of a header. -/
def headerTables (b : Build) (header : List Byte) : Except HeaderError StreamsState :=
  (tablesLoop b header.length [] {} { rest := header }).map Prod.fst

/-- The folders have the tables: the digest of a folder is that of its single substream. -/
def TablesOf (tables : StreamsState) (folders : List FolderInfo) : Prop :=
  ∀ k folder e, folders[k]? = some folder → crcOf tables.folderCrcs k = some e →
    folder.substreamCrcs.length = 1 → folder.substreamCrcs = [some e]

variable {o : Opener} {image : List Byte}

/-- What is read from the header of an archive, if it has one. -/
def fromHeader {α : Type} (o : Opener) (image : List Byte) (none_ : α)
    (read : List Byte → Except HeaderError α) : Except StreamError α := do
  let next ← nextHeader o image
  if next = [] then .ok none_
  else do
    let decoded ← decodedHeader o image next
    let body ← headerBody decoded
    match read body with
    | .ok a => .ok a
    | .error e => .error (legacyError e)

/-- The tables of the header of an archive. -/
def archiveTables (o : Opener) (image : List Byte) : Except StreamError StreamsState :=
  fromHeader o image {} (headerTables o.build)

/-- What is known about a header that is accepted, with its sections in order. -/
structure Accepted (o : Opener) (image : List Byte) (files : List FileRec)
    (folders : List FolderInfo) : Prop where
  fit : FoldersFit folders
  placed : ∃ st n i, assembleFiles st n i { flat := flatSubstreams folders } = .ok files
  totals : ((files.filter FileRec.hasStream).map FileRec.size).sum =
    (folders.map FolderInfo.unpackSize).sum
  tables : ∃ tables, archiveTables o image = .ok tables ∧ TablesOf tables folders

/-- The file of the `j`th substream of a folder. -/
theorem Accepted.file (h : Accepted o image files folders) {k j : ℕ} {folder : FolderInfo}
    (hk : folders[k]? = some folder) (hsize : folder.substreamSizes[j]? = some size)
    (hcrc : folder.substreamCrcs[j]? = some crc)
    (htaken : ∀ n : ℕ, (flatSubstreams folders)[n]? = some (k, size, crc) →
      n < (files.filter FileRec.hasStream).length) :
    ∃ f ∈ files, f.hasStream = true ∧ f.folderIndex = some k ∧ f.size = size ∧ f.crc = crc ∧
      f.streamOffset = (folder.substreamSizes.take j).sum := by
  obtain ⟨st, n, i, hfiles⟩ := h.placed
  obtain ⟨pre, post, hflat, hbytes⟩ := flatFrom_split (n := 0) hk hsize hcrc
  rw [Nat.zero_add] at hflat hbytes
  have hflat' : flatSubstreams folders = pre ++ (k, size, crc) :: post := hflat
  have hlen := htaken pre.length (by rw [hflat']; simp)
  obtain ⟨f, hf, hs, hi, hz, hc, ho⟩ :=
    assembleFiles_file hfiles ⟨pairwise_flatFrom 0 folders, nofun⟩ hflat' hlen
  refine ⟨f, hf, hs, hi, hz, hc, ?_⟩
  rw [ho, hbytes]
  exact Nat.zero_add _

end LibarchiveOxide.SevenZip.Digests
