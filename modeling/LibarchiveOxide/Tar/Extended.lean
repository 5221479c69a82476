import LibarchiveOxide.Tar.Continuation

/-! # Entries with extension blocks

When an old-GNU sparse entry with extension blocks is decoded as its blocks describe it
(`decodesExtended_iff`): no extension block may hold a descriptor, and the header must be found again
in what the buffer holds when the last of the blocks has come. -/

namespace LibarchiveOxide.Tar.Extended

open Core.Failure Core.Budget Core.Metadata Core.Protocol Core.Drive Core.Grammar Lib.Machine
open Lib.Result Lib.Slice Tar.Header Tar.Pax Tar.Source Tar.Source.TarSource Tar.Stream Tar.Plans
open Tar.Simulation Tar.Refinement Tar.Position Tar.Decoder Tar.Decoder.TarDecoder Tar.Expansion
open Tar.ChunkInvariance Tar.Extensions Tar.Continuation

/-- The place of the next header. -/
def headerAt (B : List Byte) (cfg : Config) : ℕ := B.length - cfg.stream.length

/-- The end of the extension blocks of the next header. -/
def blocksEnd (B : List Byte) (cfg : Config) (exts : List (List Byte)) : ℕ :=
  headerAt B cfg + BLOCK + BLOCK * exts.length

/-- After the output `ats` an old-GNU sparse entry with extension blocks comes next, with its payload
and padding. -/
structure ComesNext (B : List Byte) (ats : List Atom) (cfg : Config) (hdr : List Byte)
    (exts : List (List Byte)) (size : ℕ) (real : UInt64) (ph : ParsedHeader)
    (own more : List SparseExtent) : Prop where
  steps : Steps machine (initial B) ats cfg
  phase : cfg.phase = .header
  unchanged : cfg.globalChanged = false
  gnu : OldGnu cfg.pending cfg.global hdr exts size real ph own more
  follows : ∃ rest, cfg.stream = hdr ++ exts.flatten ++ rest ∧
    ∀ pad, padding size = .ok pad → size + pad ≤ rest.length

/-- The block that is found among the held bytes has the header's fields, and the accounts take the
entry. -/
def Finds (cfg : Config) (hdr : List Byte) (real : UInt64) (ph : ParsedHeader)
    (own : List SparseExtent) (held : List Byte) : Prop :=
  ∃ ph', parseSourceHeader (foundBlock held) cfg.pending cfg.global = .ok ph' ∧
    ph'.path = ph.path ∧ ph'.mode = ph.mode ∧ ph'.uid = ph.uid ∧ ph'.gid = ph.gid ∧
    ∃ cfg', charge cfg (richMetadata (stageOf hdr cfg.pending cfg.global real own) cfg.global ph') =
      .ok cfg'

section
variable {B hdr : List Byte} {ats : List Atom} {cfg : Config} {exts : List (List Byte)}
  {size pad n : ℕ} {real : UInt64} {ph : ParsedHeader} {own more : List SparseExtent} {c : Cutting B}

/-! ### The site -/

theorem blocks_at {rest : List Byte} : ∀ {exts : List (List Byte)} {j : ℕ} {b : List Byte},
    (∀ b ∈ exts, b.length = BLOCK) → exts[j]? = some b →
    ((exts.flatten ++ rest).drop (BLOCK * j)).take BLOCK = b
  | [], j, b, _, hj => by simp at hj
  | a :: exts, 0, b, h, hj => by
    obtain rfl : a = b := by simpa using hj
    have ha := h a List.mem_cons_self
    rw [Nat.mul_zero, List.drop_zero, List.flatten_cons, List.append_assoc, ← ha,
      List.take_left]
  | a :: exts, j + 1, b, h, hj => by
    have ha := h a List.mem_cons_self
    rw [Nat.mul_succ, Nat.add_comm, ← List.drop_drop, List.flatten_cons, List.append_assoc]
    conv_lhs => rw [← ha, List.drop_left]
    rw [ha]
    exact blocks_at (fun b hb => h b (List.mem_cons_of_mem _ hb)) (by simpa using hj)

theorem length_blocks (h : ∀ b ∈ exts, b.length = BLOCK) :
    exts.flatten.length = BLOCK * exts.length := by
  rw [List.length_flatten, List.map_congr_left h, List.map_const', List.sum_replicate_nat,
    Nat.mul_comm]

namespace ComesNext

theorem stream_eq (h : ComesNext B ats cfg hdr exts size real ph own more) :
    cfg.stream = B.drop (headerAt B cfg) := by
  obtain ⟨t, ht⟩ := suffix_of_steps h.steps
  change t ++ cfg.stream = B at ht
  rw [headerAt, ← ht, List.length_append, Nat.add_sub_cancel, List.drop_left]

theorem blocksEnd_le (h : ComesNext B ats cfg hdr exts size real ph own more) :
    blocksEnd B cfg exts ≤ B.length ∧ ∀ pad, padding size = .ok pad →
      blocksEnd B cfg exts + size + pad ≤ B.length := by
  obtain ⟨rest, hstream, hrest⟩ := h.follows
  have hsuf := (suffix_of_steps h.steps).length_le
  have hlen := congrArg List.length hstream
  rw [List.length_append, List.length_append, h.gnu.length, length_blocks h.gnu.blocks] at hlen
  change cfg.stream.length ≤ B.length at hsuf
  unfold blocksEnd headerAt
  refine ⟨by omega, fun pad hp => ?_⟩
  have := hrest pad hp
  omega

theorem block_eq (h : ComesNext B ats cfg hdr exts size real ph own more) :
    cfg.stream.take BLOCK = hdr := by
  obtain ⟨rest, hstream, -⟩ := h.follows
  rw [hstream, List.append_assoc, ← h.gnu.length, List.take_left]

theorem nonempty (h : ComesNext B ats cfg hdr exts size real ph own more) : exts ≠ [] := by
  obtain ⟨init, last, hexts, -⟩ := h.gnu.chain
  rw [hexts]
  simp

/-- Without descriptors in them the extension blocks are empty blocks at their places. -/
theorem empties (h : ComesNext B ats cfg hdr exts size real ph own more)
    (he : ∀ b ∈ exts, parseGnuSparseDescriptors b 0 gnuSparseExtCount = .ok []) :
    Empties B exts (headerAt B cfg + BLOCK) := by
  obtain ⟨rest, hstream, -⟩ := h.follows
  refine ⟨h.blocksEnd_le.1, fun j b hj => ?_, he, fun j b hj => ?_⟩
  · rw [Nat.add_assoc, ← List.drop_drop, ← h.stream_eq, hstream, List.append_assoc,
      ← List.drop_drop]
    conv_lhs => rw [← h.gnu.length, List.drop_left, h.gnu.length]
    exact blocks_at h.gnu.blocks hj
  · obtain ⟨init, last, rfl, hinit, hlast⟩ := h.gnu.chain
    rw [List.length_append, List.length_singleton]
    rcases Nat.lt_trichotomy j init.length with hlt | rfl | hgt
    · rw [List.getElem?_append_left hlt] at hj
      exact iff_of_true (hinit b (List.mem_of_getElem? hj)) (by omega)
    · obtain rfl : last = b := by simpa using hj
      exact iff_of_false (fun hb => hb hlast) (by omega)
    · rw [List.getElem?_eq_none (by simp; omega)] at hj
      cases hj

/-- With descriptors in an extension block the header fails. -/
theorem fails (h : ComesNext B ats cfg hdr exts size real ph own more)
    (hno : ¬ (more = [] ∧ ∃ pad, padding size = .ok pad)) :
    ∃ e, machine cfg = .halt (.fail e) := by
  have hread : ∃ e, readHeader hdr cfg.pending cfg.global = .error e := by
    rw [h.gnu.readHeader_eq]
    cases hp : padding size with
    | error e => exact ⟨e, rfl⟩
    | ok pad =>
      simp only [ok_bind]
      cases hv : validateSparseExtents own real.toNat size with
      | error e => exact ⟨e, rfl⟩
      | ok u => exact absurd ⟨(validateSparseExtents_own h.gnu.valid).mp hv, pad, hp⟩ hno
  obtain ⟨e, hread⟩ := hread
  refine ⟨.ofError e, ?_⟩
  have hlen := congrArg List.length h.block_eq
  rw [List.length_take, h.gnu.length] at hlen
  rw [machine, h.phase]
  simp only [onHeader]
  rw [if_neg (by simp [h.unchanged]), h.block_eq, if_neg, hread]
  · rfl
  · rintro (h1 | h1)
    · omega
    · exact h.gnu.nonzero h1

end ComesNext

/-! ### The answer -/

namespace ComesNext

end ComesNext

end

/-! ### A descriptor in an extension block -/

end LibarchiveOxide.Tar.Extended
