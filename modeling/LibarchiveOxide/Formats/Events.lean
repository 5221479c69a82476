import LibarchiveOxide.Ar.Discipline
import LibarchiveOxide.Ar.Meaning
import LibarchiveOxide.Cpio.Archive
import LibarchiveOxide.Cpio.Discipline
import LibarchiveOxide.Tar.Discipline
import LibarchiveOxide.Warc.Discipline
import LibarchiveOxide.Warc.Meaning

/-! # The chunking of the input

The ar and WARC decoders give every byte string the same result however it is cut, and the cpio
decoder gives it exactly to those that have no bytes behind an archive with withheld records. -/

namespace LibarchiveOxide.Formats.Chunks

open Core.Failure Core.Budget Core.Protocol Core.Drive Core.Meaning Cpio.Header Cpio.Decoder
open Cpio.Meaning Cpio.Archive Ar.Decoder Warc.Decoder Lib.Machine

/-- **Every cutting gives the result of the whole string.** -/
def ChunkInvariant {σ : Type} (step : DecodeFn σ) (d : σ) (B : List Byte) : Prop :=
  ∀ (c : Cutting B) (out : ℕ → ℕ), c.Scratch → c.Ends → (∀ i, 0 < out i) →
    ∃ n m, (run step d c n).halted = true ∧ (run step d (.whole B out) m).halted = true ∧
      SameResult (run step d c n) (run step d (.whole B out) m)

section
variable {σ : Type} {step : DecodeFn σ} {d : σ} {B : List Byte}

theorem ends_whole (B : List Byte) (out : ℕ → ℕ) : (Cutting.whole B out).Ends :=
  ⟨0, fun _ _ => rfl⟩

/-- A faithful decoder that comes to an end gives every cutting the same result. -/
theorem chunkInvariant_of_faithful {M : Reader σ} {Inv : σ → List Byte → Prop} {Inv' : σ → Prop}
    {rank : σ → ℕ} (hf : Faithful step M Inv) (hend : Ending step Inv' rank) (h : Inv d B)
    (h' : Inv' d) : ChunkInvariant step d B := by
  intro c out hout hends hout'
  obtain ⟨n, hn⟩ := run_halts hend h' hout hends
  obtain ⟨m, hm⟩ := run_halts (c := .whole B out) hend h' hout' (ends_whole B out)
  exact ⟨n, m, hn, hm, @run_agree _ _ _ _ _ _ c n hf h (.whole B out) hout hout' m hn hm⟩

end

/-! ### The cpio decoder -/

section
variable {d : CpioDecoder} {B : List Byte}

/-- A string that the machine refuses has no `Done` when it is supplied at once. -/
theorem whole_not_done {as : List Atom} (h : Halts reader (d, B) as .refused) (out : ℕ → ℕ) (n : ℕ) :
    (run CpioDecoder.step d (.whole B out) n).done = false := by
  cases hd : (run CpioDecoder.step d (.whole B out) n).done with
  | false => rfl
  | true =>
    have hdone := (@whole_done _ _ reader d B out (fun {d S k s d'} hs => turns_end _ hs) n).1 hd
    cases (h.unique hdone).2

/-- A string with bytes behind an archive with withheld records has a `Done` when they are held
back. -/
theorem heldBack_done (h : Ready d B) (ho : Overrun d B) :
    ∃ c : Cutting B, c.Scratch ∧ c.Ends ∧ ∃ n, (run CpioDecoder.step d c n).done = true := by
  obtain ⟨rs, t, rest, as, d', rfl, -, hread, -⟩ := ho
  have hassoc : bytesOf rs ++ (t.header ++ rest) = (bytesOf rs ++ t.header) ++ rest := by
    rw [List.append_assoc]
  rw [hassoc] at h ⊢
  have hready : Ready d (bytesOf rs ++ t.header) := by
    have htotal := h.total
    have hentries := h.entries
    rw [List.length_append] at htotal hentries
    exact ⟨h.limits, h.header, h.headerTarget, h.state, h.queued, by omega, by omega⟩
  obtain ⟨hsteps, hready'⟩ := steps_records (S := t.header) rs hready hread
  have htrailer := halts_trailer (S := []) t (by rw [List.append_nil]; exact hready')
  rw [if_pos (.inr rfl), List.append_nil] at htrailer
  have hhalt := htrailer.prepend hsteps
  have ha : Accepted d (bytesOf rs ++ t.header) := by
    intro bs hr
    cases (hhalt.unique hr).2
  obtain ⟨N, hN⟩ := @full_done _ _ _ _ _ _ cpio_faithful (running_of_ready hready ha) _ hhalt
    rank (by
    intro d S s d' hrun hs
    rcases (called_of_turns _ hrun.reading hs).advances with hd | hk | hlt | ⟨-, hstuck⟩
    · exact .inl hd
    · exact .inr (.inl hk)
    · exact .inr (.inr (.inl hlt))
    · exact .inr (.inr (.inr hstuck)))
  refine ⟨heldBack _ rest N, fun _ => one_pos, ⟨N, ?_⟩, N, ?_⟩
  · intro i hi
    exact if_neg (by omega)
  · rw [run_heldBack _ _ _ N le_rfl]
    exact hN

/-- **Exactly the other strings have one result.** -/
theorem cpio_chunkInvariant_iff (h : Ready d B) :
    ChunkInvariant CpioDecoder.step d B ↔ ¬ Overrun d B := by
  refine ⟨?_, ?_⟩
  · intro hinv ho
    obtain ⟨c, hout, hends, k, hk⟩ := heldBack_done h ho
    obtain ⟨as, hhalt⟩ := ho.halts h
    obtain ⟨n, m, hn, -, hsame⟩ := hinv c (fun _ => 1) hout hends fun _ => one_pos
    have hdone : (run CpioDecoder.step d c n).done = true := by
      have hh : (run CpioDecoder.step d c k).halted = true := by
        rw [Run.halted, hk, Bool.or_true]
      rcases Nat.le_total n k with hle | hle
      · rw [run_of_halted hn hle] at hk
        exact hk
      · rw [run_of_halted hh hle]
        exact hk
    rw [hsame.done, whole_not_done hhalt] at hdone
    cases hdone
  · intro ho
    exact chunkInvariant_of_faithful cpio_faithful cpio_ending
      (running_of_ready h ((accepted_iff h).mpr ho)) (reading_of_ready h)

end

/-- **Chunks do not matter** to the ar and the WARC decoder, and to the cpio decoder exactly if no
bytes follow an archive at whose trailer records are withheld. The bound is the one of a slice, which
holds the whole string. -/
theorem decoders_chunkInvariant (metadataSize extensionSize : ℕ) {B : List Byte}
    (hB : B.length ≤ u64Max) :
    ChunkInvariant ArDecoder.step (.new .unlimited) B ∧
    ChunkInvariant WarcDecoder.step (.new .unlimited extensionSize) B ∧
    (ChunkInvariant CpioDecoder.step (.new .unlimited metadataSize) B ↔
      ¬ Overrun (.new .unlimited metadataSize) B) := by
  refine ⟨?_, ?_, cpio_chunkInvariant_iff (ready_new metadataSize hB)⟩
  · have hrun := Ar.Meaning.running_new hB
    exact chunkInvariant_of_faithful Ar.Meaning.ar_faithful Ar.Discipline.ar_progress.ending hrun
      hrun.pending
  · have hrun := Warc.Meaning.running_new extensionSize hB
    exact chunkInvariant_of_faithful Warc.Meaning.warc_faithful
      WarcDecoder.warc_progress.ending hrun hrun.pending

theorem decoders_chunkInvariant_magic : (bstr "070707").length ≤ u64Max ∧
    ChunkInvariant ArDecoder.step (.new .unlimited) (bstr "070707") ∧
    ChunkInvariant WarcDecoder.step (.new .unlimited 8) (bstr "070707") ∧
    (ChunkInvariant CpioDecoder.step (.new .unlimited 8) (bstr "070707") ↔
      ¬ Overrun (.new .unlimited 8) (bstr "070707")) := by
  have hB : (bstr "070707").length ≤ u64Max := by decide
  exact ⟨hB, decoders_chunkInvariant 8 8 hB⟩

/-! ### An archive with a withheld record and a byte behind it -/

/-- The `odc` header of an empty file with this link count and name. -/
def odcFile (links namesize : String) (name : List Byte) : List Byte :=
  bstr "070707000000000001100644000000000000" ++ bstr links ++
    bstr "00000000000000000" ++ bstr namesize ++ bstr "00000000000" ++ name

/-- The first of two links. -/
def firstLink : List Byte := odcFile "000002" "000002" (bstr "a" ++ [0])

/-- The end of the archive. -/
def odcTrailer : List Byte := odcFile "000001" "000013" (trailerName ++ [0])

/-- What such a header says. -/
def odcParsed (links namesize : ℕ) (name : List Byte) : ParsedHeader where
  metadata := metadataOf ⟨odcHeader, namesize, 0, 0o100644, 0, 0, 0, 1, links, {}, {}, none, 1⟩ name
  size := 0
  padding := 0
  checksum := none
  trailer := name == trailerName

/-- A header of the `odc` dialect is read in three rounds. -/
theorem head_of_rounds {bytes : List Byte} (h : odcHeader < bytes.length)
    (h2 : targetFromPrefix .unlimited (bytes.take 2) = .ok (some 6))
    (h6 : targetFromPrefix .unlimited (bytes.take 6) = .ok (some odcHeader))
    (hfix : targetFromPrefix .unlimited (bytes.take odcHeader) = .ok (some bytes.length))
    (hall : targetFromPrefix .unlimited bytes = .ok (some bytes.length)) :
    Head .unlimited bytes := by
  have hodc : odcHeader = 76 := rfl
  have hfront : Front .unlimited bytes 6 := .next .start (by omega) h2 (by omega)
  have hfront' : Front .unlimited bytes odcHeader := .next hfront (by omega) h6 (by omega)
  refine ⟨.next hfront' (by omega) hfix h, some bytes.length, hall, ?_⟩
  intro needed hn
  cases hn
  exact le_rfl

/-- The record of the first link. -/
def firstRecord : Record where
  header := firstLink
  parsed := odcParsed 2 2 (bstr "a")
  payload := []
  padding := []
  head := head_of_rounds (by decide +kernel) (by decide +kernel) (by decide +kernel)
    (by decide +kernel) (by decide +kernel)
  parse := by decide +kernel
  ordinary := by decide
  payload_length := rfl
  padding_length := rfl
  checksum := rfl

/-- The trailer behind it. -/
def lastTrailer : Trailer where
  header := odcTrailer
  parsed := odcParsed 1 11 trailerName
  head := head_of_rounds (by decide +kernel) (by decide +kernel) (by decide +kernel)
    (by decide +kernel) (by decide +kernel)
  parse := by decide +kernel
  trailer := by decide

/-- The record is withheld at the trailer, and a byte follows it. -/
theorem overrun_firstLink :
    Overrun (.new .unlimited 512) (firstLink ++ (odcTrailer ++ [0])) := by
  refine ⟨[firstRecord], lastTrailer, [0], [], ?_⟩
  have hread : ∃ d, readAll (.new .unlimited 512) [firstRecord] = .ok ([], d) ∧
      incomplete d.hardlinks ≠ [] := ⟨_, rfl, by decide +kernel⟩
  obtain ⟨d, hread, hinc⟩ := hread
  refine ⟨d, ?_, by decide, hread, hinc⟩
  rw [bytesOf_cons, Record.bytes]
  rfl

/-- The byte behind the trailer is refused if it is supplied with the archive. -/
theorem not_chunkInvariant_firstLink : ¬ ChunkInvariant CpioDecoder.step (.new .unlimited 512)
    (firstLink ++ (odcTrailer ++ [0])) := by
  have hready : Ready (.new .unlimited 512) (firstLink ++ (odcTrailer ++ [0])) :=
    ready_new 512 (by decide +kernel)
  intro h
  exact (cpio_chunkInvariant_iff hready).mp h overrun_firstLink

end LibarchiveOxide.Formats.Chunks

/-! # The events of the four archive decoders -/

namespace LibarchiveOxide.Formats.Events

open Core.Failure Core.Budget Core.Drive Core.Grammar Tar.Decoder Cpio.Decoder Ar.Decoder
open Warc.Decoder

variable (limits : Limits) (metadataSize extensionSize : ℕ) {B : List Byte} (c : Cutting B) (n : ℕ)

/-- **Grammar and sizes.** After any number of calls on any cutting, the events of each decoder are
archive metadata and whole entries, followed by nothing, an open entry or `Done`. An entry that is
closed has exactly its declared size; a thin `ar` member has no data instead. -/
theorem decoders_shaped :
    Shaped Exact (run TarDecoder.step (.new limits) c n).events ∧
    Shaped Exact (run CpioDecoder.step (.new limits metadataSize) c n).events ∧
    Shaped Ar.Discipline.Closes (run ArDecoder.step (.new limits) c n).events ∧
    Shaped Exact (run WarcDecoder.step (.new limits extensionSize) c n).events := by
  obtain ⟨_, htar⟩ := Tar.Discipline.tar_disciplined limits c n
  obtain ⟨_, _, hcpio⟩ := CpioDecoder.cpio_accounted limits metadataSize c n
  obtain ⟨_, har⟩ := Ar.Discipline.ar_disciplined limits c n
  obtain ⟨_, hwarc⟩ := WarcDecoder.warc_disciplined limits extensionSize c n
  exact ⟨htar.ledger.trace.shaped, hcpio.ledger.trace.shaped, har.ledger.trace.shaped,
    hwarc.ledger.trace.shaped⟩

/-- **Budgets.** After any number of calls on any cutting, the events of each decoder stay within the
budgets, and its counters are the data bytes reported and the records begun and do not wrap. -/
theorem decoders_solvent :
    (let r := run TarDecoder.step (.new limits) c n;
      Solvent limits r.events (entryCount r.events) r.decoder.totalBytes r.decoder.entries) ∧
    (let r := run CpioDecoder.step (.new limits metadataSize) c n;
      Solvent limits r.events (r.decoder.begun r.events) r.decoder.total r.decoder.entries) ∧
    (let r := run ArDecoder.step (.new limits) c n;
      Solvent limits r.events (entryCount r.events) r.decoder.total r.decoder.entries) ∧
    (let r := run WarcDecoder.step (.new limits extensionSize) c n;
      Solvent limits r.events (entryCount r.events) r.decoder.decoded r.decoder.entries) := by
  obtain ⟨_, htar⟩ := Tar.Discipline.tar_disciplined limits c n
  obtain ⟨_, _, hcpio⟩ := CpioDecoder.cpio_accounted limits metadataSize c n
  obtain ⟨_, har⟩ := Ar.Discipline.ar_disciplined limits c n
  obtain ⟨_, hwarc⟩ := WarcDecoder.warc_disciplined limits extensionSize c n
  exact ⟨htar.ledger.solvent htar.count.symm, hcpio.ledger.solvent hcpio.begun_eq,
    har.ledger.solvent har.count.symm, hwarc.ledger.solvent hwarc.count.symm⟩

end LibarchiveOxide.Formats.Events
