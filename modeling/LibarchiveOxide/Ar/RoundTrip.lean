import LibarchiveOxide.Ar.Archive

/-! # The ar round trip

A written archive is read back as it was given exactly if every member fits: its numbers do not exceed
the digits of their fields, and its name has no meaning of its own for the decoder. The encoder checks
neither. -/

namespace LibarchiveOxide.Ar.RoundTrip

open Core.Failure Core.Budget Core.Metadata Core.Protocol Core.Encode Core.Drive Core.Meaning
open Ar.Decoder Ar.Decoder.ArDecoder Ar.Encoder Ar.HeaderLemmas Ar.Meaning Ar.Writing Ar.Archive
open Lib.Machine Lib.Radix Lib.Result Lib.Slice

/-- The seconds of the modification time. -/
def modifiedSecs (m : EntryMetadata) : Option Int64 := m.times.modified.map (·.secs)

/-- A regular file with a name and the declared size. -/
structure Member (x : EntryMetadata × List Byte) : Prop where
  kind : x.1.kind = .file
  path : x.1.path.raw ≠ []
  size : x.1.size.map UInt64.toNat = some x.2.length
  modified : ∀ s, modifiedSecs x.1 = some s → 0 ≤ s.toInt

/-- A member that is read back as it was given, with the defaults of what was not set. -/
structure Matches (x y : EntryMetadata × List Byte) : Prop where
  kind : y.1.kind = x.1.kind
  path : y.1.path.raw = x.1.path.raw
  size : y.1.size = x.1.size
  mode : y.1.mode = some (x.1.mode.getD (defaultMode x.1.kind) &&& 0o7777)
  uid : y.1.owner.uid = some (x.1.owner.uid.getD 0)
  gid : y.1.owner.gid = some (x.1.owner.gid.getD 0)
  modified : modifiedSecs y.1 = some ((modifiedSecs x.1).getD 0)
  body : y.2 = x.2

/-- The size in the header of a member. -/
def totalOf (x : EntryMetadata × List Byte) : ℕ := x.2.length + inlineLength x.1.path.raw

/-- A member whose header says what it should. -/
structure Fits (x : EntryMetadata × List Byte) : Prop where
  uid : (x.1.owner.uid.getD 0).toNat < 10 ^ 6
  gid : (x.1.owner.gid.getD 0).toNat < 10 ^ 6
  modified : mtimeOf x.1 < 10 ^ 12
  size : totalOf x < 10 ^ 10
  name : ¬ Reserved x.1.path.raw

section
variable {d : ArDecoder} {S : List Byte} {x : EntryMetadata × List Byte}
  {xs : List (EntryMetadata × List Byte)}

/-! ### Numbers -/

/-- A number comes back as it was given if it fits. -/
theorem ofNat_leading_iff {w : ℕ} (hw : 0 < w) (hmax : w ≤ 19) (n : UInt64) :
    UInt64.ofNat (leading 10 w n.toNat) = n ↔ n.toNat < 10 ^ w := by
  have hlt : leading 10 w n.toNat < 10 ^ w := leading_lt (by decide)
  have hpow := pow_le_u64Max hmax
  have hu : u64Max = 2 ^ 64 - 1 := rfl
  rw [← leading_eq_iff (b := 10) (by decide) hw]
  refine ⟨?_, ?_⟩
  · intro h
    have h' := congrArg UInt64.toNat h
    rw [UInt64.toNat_ofNat_of_lt' (by rw [UInt64.size]; omega)] at h'
    exact h'
  · intro h
    rw [h, UInt64.ofNat_toNat]

theorem modified_iff (hm : Member x) :
    Int64.ofInt (leading 10 12 (mtimeOf x.1)) = (modifiedSecs x.1).getD 0 ↔
      mtimeOf x.1 < 10 ^ 12 := by
  have hlt : leading 10 12 (mtimeOf x.1) < 10 ^ 12 := leading_lt (by decide)
  have hsecs : ((modifiedSecs x.1).getD 0).toInt = mtimeOf x.1 := by
    have hpos := hm.modified
    unfold modifiedSecs mtimeOf at *
    cases ht : x.1.times.modified with
    | none => rfl
    | some t =>
      rw [ht] at hpos
      have h0 : 0 ≤ t.secs.toInt := hpos _ rfl
      simp only [Option.map_some, Option.getD_some]
      omega
  rw [← leading_eq_iff (b := 10) (by decide) (by decide), ← Int64.toInt_inj, hsecs,
    Int64.toInt_ofInt_of_le (by omega) (by omega)]
  exact Int.natCast_inj

/-! ### The head of an archive -/

/-- What follows the header of a member. -/
def afterHeader (x : EntryMetadata × List Byte) (S : List Byte) : List Byte :=
  (if inlineName x.1.path.raw then x.1.path.raw else []) ++
    (x.2 ++ (List.replicate (totalOf x % 2) (chr '\n') ++ S))

theorem memberBytes_append (x : EntryMetadata × List Byte) (S : List Byte) :
    memberBytes x ++ S = memberHeader x.1 (totalOf x) ++ afterHeader x S := by
  unfold memberBytes afterHeader totalOf
  simp only [List.append_assoc]

/-- The decoder has announced a member with this name and size. -/
def Announces (d : ArDecoder) (S : List Byte) (m : EntryMetadata) (name : List Byte) (size : ℕ) :
    Prop :=
  ∃ c, Steps reader (d, S) [.entry (metadataBack name size (fieldsBack m))] c

/-- What the decoder makes of the header of a member. -/
inductive Header (d : ArDecoder) (S : List Byte) (x : EntryMetadata × List Byte) : Prop
  | skipped (hshort : inlineName x.1.path.raw = false) (hs : Skipped x.1.path.raw)
  | failed (h : Halts reader (d, memberBytes x ++ S) [] .fail)
  | short (hshort : inlineName x.1.path.raw = false) (hr : ¬ Reserved x.1.path.raw)
      (h : Announces d (memberBytes x ++ S) x.1 x.1.path.raw (leading 10 10 (totalOf x)))
  | inline (hlong : inlineName x.1.path.raw = true) (name : List Byte) (size : ℕ)
      (hname : name.length = leading 10 13 x.1.path.raw.length)
      (hsize : name.length + size = leading 10 10 (totalOf x))
      (h : Announces d (memberBytes x ++ S) x.1 name size)

theorem header_cases (hd : Ready d (memberBytes x ++ S)) (hne : x.1.path.raw ≠ []) :
    Header d S x := by
  rw [memberBytes_append] at hd
  have hlen := length_memberHeader x.1 (totalOf x)
  cases hin : inlineName x.1.path.raw with
  | false =>
    by_cases hs : Skipped x.1.path.raw
    · exact .skipped hin hs
    by_cases hr : Refused x.1.path.raw
    · refine .failed (.of_halt ?_)
      rw [memberBytes_append]
      exact hd.reader_refused hne hin hs hr
    · have hres : ¬ Reserved x.1.path.raw := fun h => h.2.elim hs hr
      have hstep := hd.reader_short hne hin hres
      rw [← memberBytes_append] at hstep
      exact .short hin hres ⟨_, .single hstep⟩
  | true =>
    have hstep := hd.reader_inline hin
    have hent := hd.entries
    rw [List.length_append, hlen] at hent
    have hname := @reader_name _ (afterHeader x S) (leading 10 13 x.1.path.raw.length)
      (leading 10 10 (totalOf x) - leading 10 13 x.1.path.raw.length)
      (leading 10 10 (totalOf x) % 2) (fieldsBack x.1) hd.limits hd.thin
      (by simp only [headerLen] at hent; omega)
    by_cases hlt : leading 10 10 (totalOf x) < leading 10 13 x.1.path.raw.length
    · rw [if_pos hlt] at hstep
      refine .failed (.of_halt ?_)
      rw [memberBytes_append]
      exact hstep
    rw [if_neg hlt] at hstep
    by_cases hcut : (afterHeader x S).length < leading 10 13 x.1.path.raw.length
    · rw [if_pos hcut] at hname
      refine .failed ?_
      rw [memberBytes_append]
      exact (Halts.of_halt hname).prepend (.single hstep)
    · rw [if_neg hcut] at hname
      have htake : ((afterHeader x S).take (leading 10 13 x.1.path.raw.length)).length =
          leading 10 13 x.1.path.raw.length := by
        rw [List.length_take]
        omega
      have hsteps := Steps.silent_trans (.single hstep) (.single hname)
      rw [← memberBytes_append] at hsteps
      exact .inline hin _ _ htake (by omega) ⟨_, hsteps⟩

/-- **A member that fits is read back.** -/
theorem steps_member (hd : Ready d (memberBytes x ++ S)) (hm : Member x) (hf : Fits x) :
    ∃ d', Ready d' S ∧ Steps reader (d, memberBytes x ++ S)
      (entryAtoms (metadataBack x.1.path.raw x.2.length (fieldsBack x.1), x.2)) (d', S) := by
  have hlen := length_memberHeader x.1 (totalOf x)
  have htotal : leading 10 10 (totalOf x) = totalOf x :=
    (leading_eq_iff (by decide) (by decide)).mpr hf.size
  rw [memberBytes_append] at hd ⊢
  have hent := hd.entries
  have htot := hd.total
  rw [List.length_append, hlen] at hent htot
  set pad := List.replicate (totalOf x % 2) (chr '\n') with hpad
  have hpadlen : pad.length = totalOf x % 2 := List.length_replicate
  have hrest : (x.2 ++ (pad ++ S)).length ≤ (afterHeader x S).length := by
    exact (List.suffix_append _ _).length_le
  have hpay := @steps_payload (opened d x.2.length (totalOf x % 2)) S x.2 pad hd.limits
    (by rw [hpadlen]; rfl) (by
      show d.total + _ ≤ _
      omega)
  refine ⟨{ opened d x.2.length (totalOf x % 2) with
    total := d.total + x.2.length, state := .header }, ?_, ?_⟩
  · rw [List.length_append, List.length_append] at hrest
    refine ⟨hd.limits, rfl, rfl, hd.thin, ?_, ?_⟩
    · show d.total + x.2.length + S.length ≤ u64Max
      omega
    · show d.entries + 1 + S.length ≤ u64Max
      simp only [headerLen] at hent
      omega
  · have hopen : Steps reader (d, memberHeader x.1 (totalOf x) ++ afterHeader x S)
        [.entry (metadataBack x.1.path.raw x.2.length (fieldsBack x.1))]
        (opened d x.2.length (totalOf x % 2), x.2 ++ (pad ++ S)) := by
      cases hin : inlineName x.1.path.raw with
      | false =>
        have hbody : totalOf x = x.2.length := by
          rw [totalOf, inlineLength, hin]
          rfl
        have hafter : afterHeader x S = x.2 ++ (pad ++ S) := by
          rw [afterHeader, hin]
          rfl
        have hstep := hd.reader_short hm.path hin hf.name
        rw [htotal] at hstep
        rw [hafter] at hstep ⊢
        rw [hbody] at hstep ⊢
        exact .single hstep
      | true =>
        have hbody : totalOf x = x.2.length + x.1.path.raw.length := by
          rw [totalOf, inlineLength, hin]
          rfl
        have hsize := hf.size
        have hname : leading 10 13 x.1.path.raw.length = x.1.path.raw.length :=
          (leading_eq_iff (by decide) (by decide)).mpr (by omega)
        have hafter : afterHeader x S = x.1.path.raw ++ (x.2 ++ (pad ++ S)) := by
          rw [afterHeader, hin]
          rfl
        have hstep := hd.reader_inline hin
        rw [htotal, hname, if_neg (by omega)] at hstep
        have hread := @reader_name _ (afterHeader x S) x.1.path.raw.length
          (totalOf x - x.1.path.raw.length) (totalOf x % 2) (fieldsBack x.1) hd.limits hd.thin
          (by simp only [headerLen] at hent; omega)
        have hsub : totalOf x - x.1.path.raw.length = x.2.length := by omega
        rw [hafter, if_neg (by rw [List.length_append]; omega), List.take_left, List.drop_left,
          hsub] at hread
        rw [hafter, hsub] at hstep
        rw [hafter]
        exact .silent_trans (.single hstep) (.single hread)
    exact hopen.trans hpay

/-- A table is skipped if its size is in its header. -/
theorem steps_table (hd : Ready d (memberBytes x ++ S)) (hshort : inlineName x.1.path.raw = false)
    (hs : Skipped x.1.path.raw) (hsize : x.2.length < 10 ^ 10) :
    ∃ d', Ready d' S ∧ Steps reader (d, memberBytes x ++ S) [] (d', S) := by
  have hbody : totalOf x = x.2.length := by
    rw [totalOf, inlineLength, hshort]
    rfl
  have htotal : leading 10 10 (totalOf x) = totalOf x :=
    (leading_eq_iff (by decide) (by decide)).mpr (by omega)
  set pad := List.replicate (totalOf x % 2) (chr '\n') with hpad
  have hafter : afterHeader x S = (x.2 ++ pad) ++ S := by
    rw [afterHeader, hshort, List.append_assoc]
    rfl
  have hlen : (x.2 ++ pad).length = totalOf x + totalOf x % 2 := by
    rw [List.length_append, hpad, List.length_replicate, hbody]
  rw [memberBytes_append, hafter] at hd ⊢
  obtain ⟨bytes, table, hhead⟩ := hd.reader_skipped hshort hs
  rw [htotal] at hhead
  obtain ⟨tbl, htbl⟩ := @reader_table d S bytes _ table _ hlen
  have htot := hd.total
  have hent := hd.entries
  rw [List.length_append, List.length_append] at htot hent
  refine ⟨{ d with stringTable := tbl, state := .header }, ?_, ?_⟩
  · refine ⟨hd.limits, rfl, hd.pending, hd.thin, ?_, ?_⟩
    · show d.total + S.length ≤ u64Max
      omega
    · show d.entries + S.length ≤ u64Max
      omega
  · exact .silent_trans (.single hhead) (.single htbl)

/-! ### Sizes that are read -/

variable {st : DecodeStep} {d' : ArDecoder}

theorem parseDigits_lt {message : String} : ∀ {bytes : List Byte} {val n : ℕ},
    parseDigits 10 message val bytes = .ok n → n < (val + 1) * 10 ^ bytes.length
  | [], val, n, h => by
    cases h
    simp
  | b :: bytes, val, n, h => by
    rw [parseDigits] at h
    split_ifs at h with hb
    cases hv : (checkedMul val 10).bind (checkedAdd · (b - chr '0').toNat) with
    | none =>
      rw [hv] at h
      cases h
    | some v =>
      rw [hv] at h
      obtain ⟨w, hw, hv⟩ := Option.bind_eq_some_iff.mp hv
      obtain ⟨rfl, -⟩ := checkedMul_eq_some.mp hw
      obtain ⟨rfl, -⟩ := checkedAdd_eq_some.mp hv
      have ih := parseDigits_lt h
      refine ih.trans_le ?_
      rw [List.length_cons, pow_succ', ← Nat.mul_assoc]
      refine Nat.mul_le_mul_right _ ?_
      omega

/-- A size field has ten digits. -/
theorem size_lt {header : List Byte} {n : ℕ}
    (h : liftError (parseDecimal (rtrim (field header fSize) (chr ' ')) >>= usizeOf) = .ok n) :
    n < 10 ^ 10 := by
  obtain ⟨v, hv, hn⟩ := bind_eq_ok.mp (mapError_eq_ok.mp h)
  have hlen : (rtrim (field header fSize) (chr ' ')).length ≤ 10 := by
    have hfield : (field header fSize).length ≤ 10 := by
      rw [field, length_window]
      have hw : fSize.2 - fSize.1 = 10 := rfl
      omega
    rw [rtrim, List.length_reverse]
    refine (List.dropWhile_sublist _).length_le.trans ?_
    rw [List.length_reverse]
    exact hfield
  unfold parseDecimal at hv
  split_ifs at hv
  have hlt := parseDigits_lt hv
  have hpow : 10 ^ (rtrim (field header fSize) (chr ' ')).length ≤ 10 ^ 10 :=
    Nat.pow_le_pow_right (by decide) hlen
  unfold usizeOf at hn
  split_ifs at hn
  cases hn
  omega

/-- A member whose size has ten digits. -/
def Small (m : EntryMetadata) : Prop := ∃ n < 10 ^ 10, m.size = some (UInt64.ofNat n)

/-- The size of the member whose name is read has ten digits. -/
def SmallName (d : ArDecoder) : Prop :=
  ∀ remaining bodySize padding fields, d.state = .bsdName remaining bodySize padding fields →
    bodySize < 10 ^ 10

theorem smallName_of_ne (h : ∀ r b p f, d.state ≠ .bsdName r b p f) : SmallName d :=
  fun r b p f hstate => absurd hstate (h r b p f)

/-- An event without an entry. -/
theorem small_of_nil {event : DecodeEvent} (h : atoms event = []) :
    ∀ m, .entry m ∈ atoms event → Small m := by
  intro m hm
  rw [h] at hm
  exact absurd hm List.not_mem_nil

theorem openMember_small {k size padding : ℕ} {name : List Byte} {fields : ArFields}
    (hsize : size < 10 ^ 10) (h : d.openMember k name size padding fields = .ok (st, d')) :
    SmallName d' ∧ ∀ m, .entry m ∈ atoms st.event → Small m := by
  obtain ⟨m, rfl, ho⟩ := opened_of_openMember h
  refine ⟨?_, ?_⟩
  · intro r b p f hstate
    rw [ho.after] at hstate
    cases ht : d.thin <;> simp [ht] at hstate
  · intro m' hm'
    rw [atoms, List.mem_singleton, Atom.entry.injEq] at hm'
    subst hm'
    exact ⟨size, hsize, ho.size_eq⟩

theorem stepMember_small {k : ℕ} {header : List Byte} (h : d.stepMember k header = .ok (st, d')) :
    SmallName d' ∧ ∀ m, .entry m ∈ atoms st.event → Small m := by
  unfold stepMember at h
  obtain ⟨fields, -, h⟩ := bind_eq_ok.mp h
  obtain ⟨size, hsize, h⟩ := bind_eq_ok.mp h
  have hlt := size_lt hsize
  dsimp only at h
  split at h
  · obtain ⟨-, h⟩ := guard_eq_ok.mp h
    cases h
    exact ⟨smallName_of_ne nofun, small_of_nil rfl⟩
  · split at h
    · obtain ⟨n, -, h⟩ := bind_eq_ok.mp h
      obtain ⟨-, h⟩ := guard_eq_ok.mp h
      obtain ⟨-, h⟩ := guard_eq_ok.mp h
      cases h
      refine ⟨?_, small_of_nil rfl⟩
      intro r b p f hstate
      cases hstate
      omega
    · obtain ⟨name, -, h⟩ := bind_eq_ok.mp h
      exact openMember_small hlt h

theorem stepHeader_small {k : ℕ} {eoi : EndOfInput} (hs : d.state = .header)
    (h : d.stepHeader S eoi k = .ok (st, d')) :
    SmallName d' ∧ ∀ m, .entry m ∈ atoms st.event → Small m := by
  unfold stepHeader at h
  dsimp only at h
  split_ifs at h
  · cases h
    exact ⟨smallName_of_ne nofun, small_of_nil rfl⟩
  · obtain ⟨rfl, rfl, -⟩ := starved_ok h
    refine ⟨?_, small_of_nil rfl⟩
    intro r b p f hstate
    have hstate : d.state = .bsdName r b p f := hstate
    rw [hs] at hstate
    cases hstate
  · exact stepMember_small h

theorem step_small (hd : SmallName d) (h : d.step S 1 .end = .ok (st, d')) :
    SmallName d' ∧ ∀ m, .entry m ∈ atoms st.event → Small m := by
  unfold step at h
  split at h
  · next hs =>
    split_ifs at h
    cases h
    exact ⟨hd, small_of_nil rfl⟩
  · next remaining padding hs =>
    unfold stepData stepEndEntry at h
    split_ifs at h
    · cases h
    · cases h
      exact ⟨smallName_of_ne (fun _ _ _ _ he => by cases he), fun m hm => by simp [atoms] at hm⟩
    · cases h
    · obtain ⟨total, -, h⟩ := bind_eq_ok.mp h
      obtain ⟨-, h⟩ := guard_eq_ok.mp h
      cases h
      refine ⟨smallName_of_ne (fun _ _ _ _ he => by cases he), ?_⟩
      intro m hm
      obtain ⟨b, -, hb⟩ := List.mem_map.mp hm
      cases hb
  · next padding hs =>
    unfold stepEndEntry at h
    split_ifs at h
    · cases h
    · cases h
      exact ⟨smallName_of_ne (fun _ _ _ _ he => by cases he), fun m hm => by simp [atoms] at hm⟩
  · next remaining padding table hs =>
    rw [stepSpecial_eq] at h
    split_ifs at h
    · cases h
    · cases h
    · cases h
      exact ⟨smallName_of_ne (fun _ _ _ _ he => by cases he), small_of_nil rfl⟩
  · next remaining bodySize padding fields hs =>
    rw [stepBsdName_eq] at h
    split_ifs at h
    · cases h
    · exact openMember_small (hd _ _ _ _ hs) h
  · next hs =>
    unfold stepMagic at h
    dsimp only at h
    split_ifs at h
    · cases h
    · exact stepHeader_small rfl h
  · next hs => exact stepHeader_small hs h

/-- **Every size that is read has ten digits.** -/
theorem steps_small {c c' : ArDecoder × List Byte} {as : List Atom} (h : Steps reader c as c')
    (hd : SmallName c.1) : ∀ m, .entry m ∈ as → Small m := by
  induction h with
  | refl =>
    intro m hm
    exact absurd hm List.not_mem_nil
  | @head c c1 c2 as bs h1 _ ih =>
    unfold reader whole at h1
    split at h1
    · cases h1
    · next s d' hs =>
      split_ifs at h1
      cases h1
      obtain ⟨hd', hsmall⟩ := step_small hd hs
      intro m hm
      rcases List.mem_append.mp hm with hm | hm
      · exact hsmall m hm
      · exact ih hd' m hm

/-! ### What is read back -/

variable {y : EntryMetadata × List Byte} {ys : List (EntryMetadata × List Byte)}

/-- **The first member behind some tables is no table.** -/
theorem first_not_skipped : ∀ {xs : List (EntryMetadata × List Byte)} {d : ArDecoder}
    {as : List Atom} {m : EntryMetadata}, Ready d (xs.flatMap memberBytes) →
    (∀ x ∈ xs, x.1.path.raw ≠ [] ∧ x.2.length < 10 ^ 10) →
    Halts reader (d, xs.flatMap memberBytes) as .done → as.head? = some (.entry m) →
    ¬ Skipped m.path.raw
  | [], d, as, m, hd, _, h, hm => by
    obtain ⟨rfl, -⟩ := h.unique (.of_halt hd.done)
    cases hm
  | x :: xs, d, as, m, hd, hx, h, hm => by
    obtain ⟨⟨hne, hsize⟩, hxs⟩ := List.forall_mem_cons.mp hx
    rw [List.flatMap_cons] at hd h
    cases header_cases hd hne with
    | skipped hshort hs =>
      obtain ⟨d', hd', hsteps⟩ := steps_table hd hshort hs hsize
      obtain ⟨bs, rfl, h'⟩ := h.of_steps hsteps
      exact first_not_skipped hd' hxs h' hm
    | failed hfail => cases (h.unique hfail).2
    | short hshort hr ha =>
      obtain ⟨c, hc⟩ := ha
      obtain ⟨bs, rfl, -⟩ := h.of_steps hc
      cases hm
      exact fun hs => hr ⟨hshort, .inl hs⟩
    | inline hlong name size hname hsz ha =>
      obtain ⟨c, hc⟩ := ha
      obtain ⟨bs, rfl, -⟩ := h.of_steps hc
      cases hm
      -- the length of a BSD name has two digits or more
      have hlong' : 16 ≤ name.length := by
        have h16 : 15 < x.1.path.raw.length := by simpa [inlineName] using hlong
        rw [hname]
        by_cases hlt : x.1.path.raw.length < 10 ^ 13
        · rw [(leading_eq_iff (by decide) (by decide)).mpr hlt]
          omega
        · have hle := le_leading (b := 10) (w := 13) (by decide) (Nat.le_of_not_lt hlt) (by decide)
          omega
      rintro (hs | hs)
      · have hs : name = bstr "/" := hs
        rw [hs] at hlong'
        exact absurd hlong' (by decide)
      · have hs : name = bstr "/SYM64" := hs
        rw [hs] at hlong'
        exact absurd hlong' (by decide)

/-- The numbers of a member that is read back as it was given. -/
theorem fits_of_matches {name : List Byte} {size : ℕ} (hm : Member x) (hr : ¬ Reserved x.1.path.raw)
    (hxy : Matches x y) (hy : y.1 = metadataBack name size (fieldsBack x.1)) (hlt : size < 10 ^ 10)
    (hsize : size = x.2.length → name = x.1.path.raw → totalOf x < 10 ^ 10) : Fits x := by
  obtain ⟨m, body⟩ := y
  have hy : m = metadataBack name size (fieldsBack x.1) := hy
  subst hy
  refine ⟨?_, ?_, ?_, hsize ?_ hxy.path, hr⟩
  · exact (ofNat_leading_iff (by decide) (by decide) _).mp (Option.some.inj hxy.uid)
  · exact (ofNat_leading_iff (by decide) (by decide) _).mp (Option.some.inj hxy.gid)
  · exact (modified_iff hm).mp (Option.some.inj hxy.modified)
  · have hs : some (UInt64.ofNat size) = x.1.size := hxy.size
    have hx := hm.size
    rw [← hs, Option.map_some, Option.some.injEq,
      UInt64.toNat_ofNat_of_lt' (by rw [UInt64.size]; omega)] at hx
    exact hx

/-- What is read of a member that fits matches it. -/
theorem matches_of_fits (hm : Member x) (hf : Fits x) :
    Matches x (metadataBack x.1.path.raw x.2.length (fieldsBack x.1), x.2) where
  kind := hm.kind.symm
  path := rfl
  size := by
    obtain ⟨n, hn, hlen⟩ := Option.map_eq_some_iff.mp hm.size
    rw [hn, ← hlen]
    show some (UInt64.ofNat n.toNat) = some n
    rw [UInt64.ofNat_toNat]
  mode := rfl
  uid := congrArg some ((ofNat_leading_iff (by decide) (by decide) _).mpr hf.uid)
  gid := congrArg some ((ofNat_leading_iff (by decide) (by decide) _).mpr hf.gid)
  modified := congrArg some ((modified_iff hm).mpr hf.modified)
  body := rfl

/-- **Members that fit are read back.** -/
theorem halts_of_fits : ∀ {xs : List (EntryMetadata × List Byte)} {d : ArDecoder},
    Ready d (xs.flatMap memberBytes) → (∀ x ∈ xs, Member x) → (∀ x ∈ xs, Fits x) →
    ∃ ys, List.Forall₂ Matches xs ys ∧
      Halts reader (d, xs.flatMap memberBytes) (ys.flatMap entryAtoms) .done
  | [], d, hd, _, _ => ⟨[], .nil, .of_halt hd.done⟩
  | x :: xs, d, hd, hm, hf => by
    obtain ⟨hmx, hmxs⟩ := List.forall_mem_cons.mp hm
    obtain ⟨hfx, hfxs⟩ := List.forall_mem_cons.mp hf
    obtain ⟨d', hd', hsteps⟩ := steps_member hd hmx hfx
    obtain ⟨ys, hys, hhalt⟩ := halts_of_fits hd' hmxs hfxs
    exact ⟨_ :: ys, .cons (matches_of_fits hmx hfx) hys, hhalt.prepend hsteps⟩

theorem entryAtoms_cancel {z : EntryMetadata × List Byte} {as bs : List Atom} (hbody : y.2 = z.2)
    (h : entryAtoms y ++ as = entryAtoms z ++ bs) : as = bs := by
  unfold entryAtoms at h
  rw [hbody, List.cons_append, List.cons_append] at h
  exact List.append_cancel_left (List.cons.inj h).2

/-- All sizes are read back, so they have ten digits. -/
theorem sizes_lt {c : ArDecoder × List Byte} (hd : SmallName d) (hm : ∀ x ∈ xs, Member x)
    (hxy : List.Forall₂ Matches xs ys) (h : Steps reader (d, S) (ys.flatMap entryAtoms) c) :
    ∀ x ∈ xs, x.2.length < 10 ^ 10 := by
  intro x hx
  obtain ⟨i, hi, rfl⟩ := List.mem_iff_getElem.mp hx
  have hj : i < ys.length := hxy.length_eq ▸ hi
  have hmatch : Matches xs[i] ys[i] := hxy.get hi hj
  obtain ⟨n, hn, hsize⟩ := steps_small h hd ys[i].1
    (List.mem_flatMap.mpr ⟨ys[i], List.getElem_mem hj, List.mem_cons_self⟩)
  have hlen := (hm _ hx).size
  rw [← hmatch.size, hsize, Option.map_some, Option.some.injEq,
    UInt64.toNat_ofNat_of_lt' (by rw [UInt64.size]; omega)] at hlen
  omega

/-- The first member that is read back fits. -/
theorem fits_of_head {as : List Atom} (hd : Ready d ((x :: xs).flatMap memberBytes))
    (hm : ∀ z ∈ x :: xs, Member z) (hsizes : ∀ z ∈ x :: xs, z.2.length < 10 ^ 10)
    (hxy : Matches x y)
    (h : Halts reader (d, (x :: xs).flatMap memberBytes) (entryAtoms y ++ as) .done) : Fits x := by
  obtain ⟨hmx, hmxs⟩ := List.forall_mem_cons.mp hm
  obtain ⟨hsize, hsizes⟩ := List.forall_mem_cons.mp hsizes
  rw [List.flatMap_cons] at hd h
  cases header_cases hd hmx.path with
  | skipped hshort hs =>
    obtain ⟨d', hd', hsteps⟩ := steps_table hd hshort hs hsize
    obtain ⟨bs, hbs, h'⟩ := h.of_steps hsteps
    rw [List.nil_append] at hbs
    have hfirst := first_not_skipped (m := y.1) hd'
      (fun z hz => ⟨(hmxs z hz).path, hsizes z hz⟩) h' (by rw [← hbs]; rfl)
    rw [hxy.path] at hfirst
    exact absurd hs hfirst
  | failed hfail => cases (h.unique hfail).2
  | short hshort hr ha =>
    obtain ⟨c, hc⟩ := ha
    obtain ⟨bs, hbs, -⟩ := h.of_steps hc
    have hy : y.1 = metadataBack x.1.path.raw (leading 10 10 (totalOf x)) (fieldsBack x.1) :=
      Atom.entry.inj (List.cons.inj hbs).1
    have hlead : leading 10 10 (totalOf x) < 10 ^ 10 := leading_lt (by decide)
    have hbody : totalOf x = x.2.length := by
      rw [totalOf, inlineLength, hshort]
      rfl
    exact fits_of_matches hmx hr hxy hy hlead fun _ _ => by omega
  | inline hlong name size hname hsz ha =>
    obtain ⟨c, hc⟩ := ha
    obtain ⟨bs, hbs, -⟩ := h.of_steps hc
    have hy : y.1 = metadataBack name size (fieldsBack x.1) :=
      Atom.entry.inj (List.cons.inj hbs).1
    have hlead : leading 10 10 (totalOf x) < 10 ^ 10 := leading_lt (by decide)
    have hbody : totalOf x = x.2.length + x.1.path.raw.length := by
      rw [totalOf, inlineLength, hlong]
      rfl
    have hr : ¬ Reserved x.1.path.raw := by
      rintro ⟨hshort, -⟩
      rw [hlong] at hshort
      cases hshort
    refine fits_of_matches hmx hr hxy hy (by omega) ?_
    rintro rfl rfl
    omega

/-- **Members that are read back fit.** -/
theorem fits_of_halts (hxy : List.Forall₂ Matches xs ys) :
    ∀ {d : ArDecoder}, Ready d (xs.flatMap memberBytes) → (∀ x ∈ xs, Member x) →
    Halts reader (d, xs.flatMap memberBytes) (ys.flatMap entryAtoms) .done → ∀ x ∈ xs, Fits x := by
  induction hxy with
  | nil =>
    intro d _ _ _ x hx
    exact absurd hx List.not_mem_nil
  | @cons x y xs ys hxy hxys ih =>
    intro d hd hm h
    obtain ⟨hmx, hmxs⟩ := List.forall_mem_cons.mp hm
    have hsmallName : SmallName d := smallName_of_ne (by rw [hd.state]; exact nofun)
    obtain ⟨c, hc, hdone⟩ := h
    have hsizes := sizes_lt hsmallName hm (.cons hxy hxys) hc
    have hfits : Fits x := fits_of_head hd hm hsizes hxy ⟨c, hc, hdone⟩
    rw [List.flatMap_cons] at hd hc
    obtain ⟨d', hd', hsteps⟩ := steps_member hd hmx hfits
    obtain ⟨bs, hbs, h'⟩ := Halts.of_steps ⟨c, hc, hdone⟩ hsteps
    have hbody : y.2 = (metadataBack x.1.path.raw x.2.length (fieldsBack x.1), x.2).2 := hxy.body
    have hrest : ys.flatMap entryAtoms = bs := entryAtoms_cancel hbody hbs
    rw [← hrest] at h'
    exact List.forall_mem_cons.mpr ⟨hfits, ih hd' hmxs h'⟩

/-! ### Whole archives -/

/-- The decoder behind the global magic. -/
def begun : ArDecoder := { ArDecoder.new .unlimited with state := .header }

/-- The global magic is read with what follows it. -/
theorem reader_magic (S : List Byte) :
    reader (.new .unlimited, magic ++ S) = reader (begun, S) := by
  have htake : (magic ++ S).take magic.length = magic := List.take_left
  have hdrop : (magic ++ S).drop magic.length = S := List.drop_left
  have hstep : (ArDecoder.new .unlimited).step (magic ++ S) 1 .end =
      shifted magic.length (begun.step ((magic ++ S).drop magic.length) 1 .end) := by
    rw [step_magic rfl, step_header rfl, stepMagic]
    have hmin : min (magic.length - (ArDecoder.new .unlimited).pending.length)
        (magic ++ S).length = magic.length := by
      rw [List.length_append]
      exact Nat.min_eq_left (Nat.le_add_right _ _)
    have hpend : (ArDecoder.new .unlimited).pending ++ magic = magic := rfl
    rw [hmin, htake, hpend, if_neg (lt_irrefl _), if_neg (fun h => h.1 rfl), stepHeader_shifted]
    rfl
  have h := whole_of_shifted hstep
  rw [hdrop] at h
  exact h

/-- The archive is read to `Done` with these members, in order. -/
def ReadsBack (out : List Byte) (xs : List (EntryMetadata × List Byte)) : Prop :=
  Reads ArDecoder.step (.new .unlimited) out fun as =>
    ∃ ys, as = ys.flatMap entryAtoms ∧ List.Forall₂ Matches xs ys

theorem readsBack_iff (hm : ∀ x ∈ xs, Member x)
    (hlen : (magic ++ xs.flatMap memberBytes).length ≤ u64Max) :
    ReadsBack (magic ++ xs.flatMap memberBytes) xs ↔ ∀ x ∈ xs, Fits x := by
  have hrun := running_new hlen
  have hready : Ready begun (xs.flatMap memberBytes) := by
    rw [List.length_append] at hlen
    refine ⟨rfl, rfl, rfl, rfl, ?_, ?_⟩
    · show 0 + _ ≤ _
      omega
    · show 0 + _ ≤ _
      omega
  have hbegin : ∀ as o, Halts reader (.new .unlimited, magic ++ xs.flatMap memberBytes) as o ↔
      Halts reader (begun, xs.flatMap memberBytes) as o := by
    intro as o
    have heq := reader_magic (xs.flatMap memberBytes)
    exact ⟨Continues.of_eq heq.symm as o, Continues.of_eq heq as o⟩
  unfold ReadsBack
  rw [reads_iff ar_faithful Ar.Discipline.ar_progress.ending hrun hrun.pending]
  refine ⟨?_, ?_⟩
  · rintro ⟨as, hhalt, ys, rfl, hxy⟩
    exact fits_of_halts hxy hready hm ((hbegin _ _).mp hhalt)
  · intro hf
    obtain ⟨ys, hxy, hhalt⟩ := halts_of_fits hready hm hf
    exact ⟨_, (hbegin _ _).mpr hhalt, ys, rfl, hxy⟩

end

/-- **An accepted archive is read back exactly if its members fit.** The bound is the one of a slice,
which holds all of the output. -/
theorem encoded_readsBack_iff {xs : List (EntryMetadata × List Byte)} {out : List Byte}
    (hm : ∀ x ∈ xs, Member x) (he : Encodes ArEncoder.step (.new .unlimited) (script xs) out)
    (hout : out.length ≤ u64Max) : ReadsBack out xs ↔ ∀ x ∈ xs, Fits x := by
  obtain rfl := encodes_script he
  exact readsBack_iff hm hout

/-- A file with one byte. -/
def oneByte (name : String) : EntryMetadata × List Byte :=
  ({ kind := .file, path := .fromBytes (bstr name), size := some 1 }, [7])

theorem member_oneByte {name : String} (h : bstr name ≠ []) :
    ∀ x ∈ [oneByte name], Member x := by
  intro x hx
  obtain rfl := List.mem_singleton.mp hx
  exact ⟨rfl, h, rfl, nofun⟩

/-- The encoder after the header of such a file. -/
def inFile : ArEncoder :=
  { ArEncoder.new .unlimited with
    started := true, isOpen := true, remaining := 1, padding := 1, entries := 1 }

/-- A script of one file is accepted. -/
theorem encodes_oneByte {name : String} (hshort : inlineName (bstr name) = false) :
    Encodes ArEncoder.step (.new .unlimited) (script [oneByte name])
      (magic ++ [oneByte name].flatMap memberBytes) := by
  set staged := magic ++ memberHeader (oneByte name).1 1 with hstaged
  have hinline : inlineName (oneByte name).1.path.raw = false := hshort
  have hstage : (ArEncoder.new .unlimited).stageEntry (oneByte name).1 =
      ({ inFile with pending := staged, entries := 0 }, .ok ()) := by
    have hsize : (oneByte name).1.size = some 1 := rfl
    unfold ArEncoder.stageEntry
    simp only [hsize, inlineLength, hinline]
    rw [hstaged, ← List.append_nil (magic ++ memberHeader (oneByte name).1 1)]
    rfl
  have hbegin : ArEncoder.step (.new .unlimited) (.beginEntry (oneByte name).1) staged.length =
      (inFile, .ok ⟨1, staged, .needCommand⟩) := by
    have hchecks : (ArEncoder.new .unlimited).beginChecks (oneByte name).1 = .ok 1 := rfl
    have hstep : ArEncoder.step (.new .unlimited) (.beginEntry (oneByte name).1) staged.length =
        ArEncoder.drained { inFile with pending := staged } 1 staged.length := by
      have hgo : ∀ m n, ArEncoder.step (.new .unlimited) (.beginEntry m) n =
        (ArEncoder.new .unlimited).beginEntry m n := fun _ _ => rfl
      rw [hgo, ArEncoder.beginEntry, hchecks]
      simp only [hstage]
      rfl
    rw [hstep, ArEncoder.drained, ArEncoder.drainPending, show inFile.pendingPos = 0 from rfl,
      drain_all]
    rfl
  have hfinish : Encodes ArEncoder.step
      { inFile with remaining := 0, padding := 0, isOpen := false } [.finish] ([] ++ []) :=
    .call (n := 1) (s := ⟨1, [], .done⟩) rfl (.nil _)
  have hend : Encodes ArEncoder.step { inFile with remaining := 0 } [.endEntry, .finish]
      ([chr '\n'] ++ ([] ++ [])) :=
    .call (n := 1) (s := ⟨1, [chr '\n'], .needCommand⟩) rfl hfinish
  have hdata : Encodes ArEncoder.step inFile [.data [7], .endEntry, .finish]
      ([7] ++ ([chr '\n'] ++ ([] ++ []))) :=
    .call (n := 1) (s := ⟨1, [7], .needCommand⟩) rfl hend
  have hall : Encodes ArEncoder.step (.new .unlimited) (script [oneByte name])
      (staged ++ ([7] ++ ([chr '\n'] ++ ([] ++ [])))) := .call hbegin hdata
  have hout : magic ++ [oneByte name].flatMap memberBytes =
      staged ++ ([7] ++ ([chr '\n'] ++ ([] ++ []))) := by
    rw [List.flatMap_singleton, memberBytes, inlineLength, hinline, hstaged, List.append_assoc]
    rfl
  rw [hout]
  exact hall

theorem encoded_readsBack_iff_oneByte : (∀ x ∈ [oneByte "a"], Member x) ∧
    Encodes ArEncoder.step (.new .unlimited) (script [oneByte "a"])
      (magic ++ [oneByte "a"].flatMap memberBytes) ∧
    (magic ++ [oneByte "a"].flatMap memberBytes).length ≤ u64Max ∧
    (ReadsBack (magic ++ [oneByte "a"].flatMap memberBytes) [oneByte "a"] ↔
      ∀ x ∈ [oneByte "a"], Fits x) := by
  have hm := @member_oneByte "a" (by decide)
  have he := @encodes_oneByte "a" (by decide)
  have hlen : (magic ++ [oneByte "a"].flatMap memberBytes).length ≤ u64Max := by decide +kernel
  exact ⟨hm, he, hlen, encoded_readsBack_iff hm he hlen⟩

/-- A file whose name is a slash is read as a table, so it is lost. -/
theorem not_readsBack_slash : (∀ x ∈ [oneByte "/"], Member x) ∧
    Encodes ArEncoder.step (.new .unlimited) (script [oneByte "/"])
      (magic ++ [oneByte "/"].flatMap memberBytes) ∧
    ¬ ReadsBack (magic ++ [oneByte "/"].flatMap memberBytes) [oneByte "/"] := by
  have hm := @member_oneByte "/" (by decide)
  have hlen : (magic ++ [oneByte "/"].flatMap memberBytes).length ≤ u64Max := by decide +kernel
  refine ⟨hm, @encodes_oneByte "/" (by decide), ?_⟩
  rw [readsBack_iff hm hlen]
  intro h
  exact (h _ List.mem_cons_self).name ⟨by decide, .inl (.inl rfl)⟩

end LibarchiveOxide.Ar.RoundTrip
