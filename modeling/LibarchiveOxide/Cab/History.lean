import LibarchiveOxide.Cab.Reader

/-! # The MSZIP window

History and output share one workspace that is compacted after each block. Whatever the inflater is,
as long as it writes only where it is told to, the workspace begins with the last bytes of what the
folder has given so far, up to 32 KiB of them (`history_window`). -/

namespace LibarchiveOxide.Cab.History

open Core.Failure Core.Budget Lib.Result Stream.Event Cab.Data Cab.Folder Cab.Reader

variable {c : Codecs} {α β : Type}

/-- The inflater leaves the size of the workspace and all that is in front of where it may write. -/
def WritesBehind (c : Codecs) : Prop :=
  ∀ (d : c.Inflate) (input workspace : List Byte) (start : ℕ) {status consumed written workspace' d'},
    c.inflate d input workspace start = ((status, consumed, written, workspace'), d') →
    workspace'.length = workspace.length ∧ workspace'.take start = workspace.take start

/-- The failure of a block that has no room in the workspace. -/
def noRoom : StreamError := cabError .malformed "MSZIP history and output exceed the workspace"

/-! ### One block -/

variable {historyLen expected : ℕ}

/-- What has been inflated stands behind the history. -/
theorem mszipLoop_ok (hc : WritesBehind c) {history : List Byte}
    (hhistory : history.length = historyLen) :
    ∀ {fuel : ℕ} {d : c.Inflate} {input workspace output output' workspace' : List Byte},
      workspace.take (historyLen + output.length) = history ++ output →
      mszipLoop historyLen expected fuel d input workspace output = .ok (output', workspace') →
      workspace'.length = workspace.length ∧
        workspace'.take (historyLen + output'.length) = history ++ output'
  | 0, d, input, workspace, output, output', workspace', _, h => by cases h
  | fuel + 1, d, input, workspace, output, output', workspace', htake, h => by
    unfold mszipLoop at h
    obtain ⟨start, hstart, h⟩ := bind_eq_ok.mp h
    obtain ⟨rfl, -⟩ := checkedAdd_eq_some.mp (okOr_eq_ok.mp hstart)
    cases hinflate : c.inflate d input workspace (historyLen + output.length) with
    | mk result d₁ =>
      obtain ⟨status, consumed, written, workspace₁⟩ := result
      rw [hinflate] at h
      obtain ⟨hlen, hkept⟩ := hc _ _ _ _ hinflate
      obtain ⟨-, h⟩ := guard_eq_ok.mp h
      obtain ⟨stop, hstop, h⟩ := bind_eq_ok.mp h
      obtain ⟨rfl, -⟩ := checkedAdd_eq_some.mp (okOr_eq_ok.mp hstop)
      obtain ⟨hroom, h⟩ := guard_eq_ok.mp h
      obtain ⟨-, h⟩ := guard_eq_ok.mp h
      -- the new bytes continue the output
      have hwritten : ((workspace₁.drop (historyLen + output.length)).take written).length = written := by
        rw [List.length_take, List.length_drop]
        omega
      have htake₁ : workspace₁.take (historyLen +
          (output ++ (workspace₁.drop (historyLen + output.length)).take written).length) =
          history ++ (output ++ (workspace₁.drop (historyLen + output.length)).take written) := by
        rw [List.length_append, hwritten, ← Nat.add_assoc, List.take_add, hkept, htake,
          List.append_assoc]
      cases status with
      | done =>
        cases h
        exact ⟨hlen, htake₁⟩
      | hasMoreOutput =>
        dsimp only at h
        split_ifs at h
        obtain ⟨hlen', htake'⟩ := mszipLoop_ok hc hhistory htake₁ h
        exact ⟨hlen'.trans hlen, htake'⟩
      | needsMoreInput => cases h
      | failedCannotMakeProgress => cases h
      | failed => cases h

theorem bind_ne_noRoom {x : Except StreamError α} {f : α → Except StreamError β}
    (hx : x ≠ .error noRoom) (hf : ∀ a, x = .ok a → f a ≠ .error noRoom) :
    (x >>= f) ≠ .error noRoom := fun h => by
  rcases bind_eq_error.mp h with h | ⟨a, ha, h⟩
  · exact hx h
  · exact hf a ha h

theorem guard_ne_noRoom {p : Prop} [Decidable p] {e : StreamError} {f : α → Except StreamError β}
    {g : Except StreamError β} (he : e ≠ noRoom) (hg : ¬ p → g ≠ .error noRoom) :
    (if p then throw e >>= f else g) ≠ .error noRoom := by
  split_ifs with hp
  · exact fun h => he (Except.error.inj h)
  · exact hg hp

theorem okOr_ne_noRoom {o : Option α} {e : StreamError} (he : e ≠ noRoom) :
    okOr o e ≠ .error noRoom := fun h => he (okOr_eq_error.mp h).2

/-- The loop does not complain about the workspace. -/
theorem mszipLoop_ne_noRoom :
    ∀ {fuel : ℕ} {d : c.Inflate} {input workspace output : List Byte},
      mszipLoop historyLen expected fuel d input workspace output ≠ .error noRoom
  | 0, d, input, workspace, output => by
    rw [mszipLoop]
    decide
  | fuel + 1, d, input, workspace, output => by
    unfold mszipLoop
    refine bind_ne_noRoom (okOr_ne_noRoom (by decide)) fun start _ => ?_
    refine guard_ne_noRoom (by decide) fun _ => ?_
    refine bind_ne_noRoom (okOr_ne_noRoom (by decide)) fun stop _ => ?_
    refine guard_ne_noRoom (by decide) fun _ => ?_
    refine guard_ne_noRoom (by decide) fun _ => ?_
    split
    · nofun
    · split_ifs
      · exact fun h => absurd (Except.error.inj h) (by decide)
      · exact mszipLoop_ne_noRoom
    · exact fun h => absurd (Except.error.inj h) (by decide)
    · exact fun h => absurd (Except.error.inj h) (by decide)
    · exact fun h => absurd (Except.error.inj h) (by decide)

/-- The workspace begins with the last bytes of the output. -/
structure Windowed (output workspace : List Byte) (historyLen : ℕ) : Prop where
  size : workspace.length = mszipWorkspace
  historyLen_eq : historyLen = min output.length mszipWindow
  window : workspace.take historyLen = output.drop (output.length - historyLen)

theorem windowed_fresh : Windowed [] (List.replicate mszipWorkspace 0) 0 :=
  ⟨List.length_replicate .., rfl, rfl⟩

/-- **A block keeps the window.** -/
theorem mszipInflateBlock_windowed (hc : WritesBehind c)
    {total workspace deflate output workspace' :
    List Byte} {historyLen' : ℕ} (h : Windowed total workspace historyLen)
    (hrun : mszipInflateBlock c workspace historyLen deflate expected =
      .ok (output, workspace', historyLen')) :
    Windowed (total ++ output) workspace' historyLen' := by
  obtain ⟨hsize, rfl, hwindow⟩ := h
  obtain ⟨-, hrun⟩ := guard_eq_ok.mp hrun
  obtain ⟨combined, hcombined, hrun⟩ := bind_eq_ok.mp hrun
  obtain ⟨rfl, -⟩ := checkedAdd_eq_some.mp (okOr_eq_ok.mp hcombined)
  obtain ⟨hroom, hrun⟩ := guard_eq_ok.mp hrun
  obtain ⟨⟨output₁, workspace₁⟩, hloop, hrun⟩ := bind_eq_ok.mp hrun
  obtain ⟨hexpected, hrun⟩ := guard_eq_ok.mp hrun
  cases hrun
  rw [not_not] at hexpected
  have hlen : (total.drop (total.length - min total.length mszipWindow)).length =
      min total.length mszipWindow := by
    rw [List.length_drop]
    omega
  obtain ⟨hlen₁, htake⟩ := mszipLoop_ok hc hlen (by
    rw [List.length_nil, Nat.add_zero, hwindow, List.append_nil]) hloop
  rw [hexpected] at htake
  obtain ⟨hist, hhist⟩ : ∃ hist, hist = min total.length mszipWindow := ⟨_, rfl⟩
  rw [← hhist] at hlen htake hroom ⊢
  obtain ⟨retained, hretained⟩ : ∃ retained, retained = min (hist + expected) mszipWindow := ⟨_, rfl⟩
  rw [← hretained]
  have htotal : (total ++ output).length = total.length + expected := by
    rw [List.length_append, hexpected]
  -- the last bytes of history and output are the last bytes of everything
  have hlast : (workspace₁.drop (hist + expected - retained)).take retained =
      (total ++ output).drop (total.length + expected - retained) := by
    have hjoined : total.drop (total.length - hist) ++ output =
        (total ++ output).drop (total.length - hist) :=
      (List.drop_append_of_le_length (Nat.sub_le _ _)).symm
    calc (workspace₁.drop (hist + expected - retained)).take retained
        = (workspace₁.take (hist + expected)).drop (hist + expected - retained) := by
          rw [List.drop_take, Nat.sub_sub_self (by omega)]
      _ = (total ++ output).drop (total.length - hist + (hist + expected - retained)) := by
          rw [htake, hjoined, List.drop_drop]
      _ = (total ++ output).drop (total.length + expected - retained) := by
          congr 1
          omega
  have hkept : ((workspace₁.drop (hist + expected - retained)).take retained).length = retained := by
    rw [hlast, List.length_drop, htotal]
    omega
  refine ⟨?_, ?_, ?_⟩
  · rw [List.length_append, hkept, List.length_drop]
    omega
  · rw [htotal]
    omega
  · rw [List.take_append_of_le_length hkept.ge, List.take_of_length_le hkept.le, hlast, htotal]

/-- A block of at most 32 KiB has room. -/
theorem mszipInflateBlock_ne_noRoom {total workspace deflate : List Byte}
    (h : Windowed total workspace historyLen) (hexpected : expected ≤ mszipWindow) :
    mszipInflateBlock c workspace historyLen deflate expected ≠ .error noRoom := by
  refine guard_ne_noRoom (by decide) fun _ => ?_
  refine bind_ne_noRoom (okOr_ne_noRoom (by decide)) fun combined hcombined => ?_
  obtain ⟨rfl, -⟩ := checkedAdd_eq_some.mp (okOr_eq_ok.mp hcombined)
  have hroom : ¬ workspace.length < historyLen + expected := by
    rw [h.size, h.historyLen_eq, mszipWorkspace]
    omega
  rw [if_neg hroom]
  refine bind_ne_noRoom mszipLoop_ne_noRoom fun result _ => ?_
  exact guard_ne_noRoom (by decide) fun _ => nofun

/-! ### A folder -/

/-- Payloads of a folder decoded one after the other, each with its declared size: all output, and
the stream. -/
def decodePayloads : List (List Byte × ℕ) → List Byte → FolderStream c →
    Except StreamError (List Byte × FolderStream c)
  | [], total, stream => .ok (total, stream)
  | block :: blocks, total, stream => do
    let (output, codec) ← decodeCfdataPayload stream block.1 block.2
    decodePayloads blocks (total ++ output) { stream with codec := codec }

/-- An MSZIP stream whose workspace begins with the last bytes of the output. -/
def Streams (total : List Byte) (stream : FolderStream c) : Prop :=
  stream.method = .mszip ∧ ∃ workspace historyLen, stream.codec = .mszip workspace historyLen ∧
    Windowed total workspace historyLen

/-- **One payload.** -/
theorem decodeCfdataPayload_streams (hc : WritesBehind c) {total : List Byte}
    {stream : FolderStream c} {cbUncomp : ℕ} (h : Streams total stream) (payload : List Byte)
    (hsize : cbUncomp ≤ mszipWindow) :
    (∀ output codec, decodeCfdataPayload stream payload cbUncomp = .ok (output, codec) →
      Streams (total ++ output) { stream with codec := codec }) ∧
      decodeCfdataPayload stream payload cbUncomp ≠ .error noRoom := by
  obtain ⟨hmethod, workspace, historyLen, hcodec, hwindowed⟩ := h
  unfold decodeCfdataPayload
  rw [hmethod, hcodec]
  dsimp only
  split_ifs with hsignature
  · exact ⟨nofun, fun h => absurd (Except.error.inj h) (by decide)⟩
  · constructor
    · intro output codec hrun
      obtain ⟨⟨output', workspace', historyLen'⟩, hblock, hrun⟩ := bind_eq_ok.mp hrun
      cases hrun
      exact ⟨rfl, _, _, rfl, mszipInflateBlock_windowed hc hwindowed hblock⟩
    · exact bind_ne_noRoom (mszipInflateBlock_ne_noRoom hwindowed hsize) fun result _ => nofun

/-- **Every sequence of payloads** keeps the window, and has room. -/
theorem decodePayloads_streams (hc : WritesBehind c) : ∀ {blocks : List (List Byte × ℕ)}
    {total : List Byte} {stream : FolderStream c}, Streams total stream →
    (∀ b ∈ blocks, b.2 ≤ mszipWindow) →
    (∀ total' stream', decodePayloads blocks total stream = .ok (total', stream') →
      Streams total' stream') ∧ decodePayloads blocks total stream ≠ .error noRoom
  | [], total, stream, h, _ => by
    refine ⟨fun total' stream' hrun => ?_, nofun⟩
    cases hrun
    exact h
  | block :: blocks, total, stream, h, hsizes => by
    obtain ⟨hok, hne⟩ := decodeCfdataPayload_streams hc h block.1
      (hsizes block List.mem_cons_self)
    have hrest := fun b hb => hsizes b (List.mem_cons_of_mem _ hb)
    constructor
    · intro total' stream' hrun
      obtain ⟨⟨output, codec⟩, hblock, hrun⟩ := bind_eq_ok.mp hrun
      exact (decodePayloads_streams hc (hok output codec hblock) hrest).1 total' stream' hrun
    · exact bind_ne_noRoom hne fun r hr => (decodePayloads_streams hc (hok r.1 r.2 hr) hrest).2

/-- **The history is the window**: after every sequence of blocks of an MSZIP folder the workspace
begins with the last bytes of all output, up to 32 KiB, and no block lacks room. -/
theorem history_window (hc : WritesBehind c) {limits : Limits} {folder : CabFolder}
    {codec : CodecState c} (hmethod : folder.method = .mszip)
    (hcodec : newCodec limits folder = .ok codec) (index reserveData : ℕ) (allowSpanning : Bool)
    {blocks : List (List Byte × ℕ)} (hsizes : ∀ b ∈ blocks, b.2 ≤ mszipWindow) :
    (∀ total stream, decodePayloads blocks []
        (freshStream index folder reserveData allowSpanning codec) = .ok (total, stream) →
      ∃ workspace historyLen, stream.codec = .mszip workspace historyLen ∧
        historyLen = min total.length mszipWindow ∧
        workspace.take historyLen = total.drop (total.length - historyLen)) ∧
    decodePayloads blocks [] (freshStream index folder reserveData allowSpanning codec) ≠
      .error noRoom := by
  have hfresh : Streams [] (freshStream index folder reserveData allowSpanning codec) := by
    unfold newCodec at hcodec
    rw [hmethod] at hcodec
    dsimp only at hcodec
    split_ifs at hcodec
    cases hcodec
    exact ⟨hmethod, _, _, rfl, windowed_fresh⟩
  obtain ⟨hok, hne⟩ := decodePayloads_streams hc hfresh hsizes
  refine ⟨fun total stream hrun => ?_, hne⟩
  obtain ⟨-, workspace, historyLen, hcodec', hwindowed⟩ := hok total stream hrun
  exact ⟨workspace, historyLen, hcodec', hwindowed.historyLen_eq, hwindowed.window⟩

/-- Stored bytes are copied, if there is room for them. -/
def store (input workspace : List Byte) (start : ℕ) : TinflStatus × ℕ × ℕ × List Byte :=
  if start + input.length ≤ workspace.length then
    (.done, input.length, input.length,
      workspace.take start ++ input ++ workspace.drop (start + input.length))
  else (.failed, 0, 0, workspace)

/-- An inflater of stored bytes, in a build that has no other decoder. -/
def storedCodecs : Codecs where
  Inflate := Unit
  newInflate := ()
  inflate _ input workspace start := (store input workspace start, ())
  lzxEnabled := false
  Lzx := Unit
  newLzx _ := none
  lzx _ _ _ := none
  quantumEnabled := false
  Quantum := Unit
  newQuantum _ := none
  quantum _ _ _ := .error .other
  quantumFinish _ _ := .error .other

theorem writesBehind_stored : WritesBehind storedCodecs := by
  intro d input workspace start status consumed written workspace' d' h
  have h := congrArg Prod.fst h
  change store input workspace start = _ at h
  unfold store at h
  split_ifs at h with hroom
  · cases h
    have htake : (workspace.take start).length = start := List.length_take_of_le (by omega)
    refine ⟨?_, ?_⟩
    · simp only [List.length_append, htake, List.length_drop]
      omega
    · rw [List.append_assoc, List.take_append_of_le_length htake.ge, List.take_of_length_le htake.le]
  · cases h
    exact ⟨rfl, rfl⟩

/-- A folder of two blocks. -/
def twoBlocks : CabFolder := { dataOffset := 0, numData := 2, method := .mszip }

theorem newCodec_twoBlocks : newCodec (c := storedCodecs) .unlimited twoBlocks =
    .ok (.mszip (List.replicate mszipWorkspace 0) 0) := by
  simp only [newCodec, twoBlocks, Limits.unlimited, exceeds_none, Bool.false_eq_true, if_false]

/-- The stream of that folder. -/
def twoBlocksStream : FolderStream storedCodecs :=
  freshStream 0 twoBlocks 0 false (.mszip (List.replicate mszipWorkspace 0) 0)

theorem history_window_twoBlocks :
    (∀ total stream, decodePayloads [(bstr "CKabc", 3), (bstr "CKde", 2)] [] twoBlocksStream =
        .ok (total, stream) →
      ∃ workspace historyLen, stream.codec = .mszip workspace historyLen ∧
        historyLen = min total.length mszipWindow ∧
        workspace.take historyLen = total.drop (total.length - historyLen)) ∧
    decodePayloads [(bstr "CKabc", 3), (bstr "CKde", 2)] [] twoBlocksStream ≠ .error noRoom :=
  history_window writesBehind_stored rfl newCodec_twoBlocks 0 0 false (by decide)

end LibarchiveOxide.Cab.History
