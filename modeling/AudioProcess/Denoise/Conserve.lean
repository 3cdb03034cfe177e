import AudioProcess.Denoise.Main
import AudioProcess.Denoise.Reset
import AudioProcess.Wav.RoundTrip

/-!
# How many samples the denoise program writes

* `samples_append`, `length_samples`, `samples_take`, `samples_drop`: samples and their bytes;
* `MainInv`: what the loop of `main` keeps: the samples fed are in the output or pending;
* `MainInv.turn`, `MainInv.loop`: a turn, and the loop; the loop reads to the end of the file;
* `Conserves`: the samples of the data chunk are fed, and as many are written behind the header;
* **`conserves_iff`**: that is so when the loop runs and nothing but a pad byte follows the chunk, or when
  there are no samples.
-/

namespace AudioProcess

open Mem CInt While

/-! ## Samples and bytes -/

theorem samples_append : ∀ {bs : List UInt8}, 2 ∣ bs.length → ∀ bs', samples (bs ++ bs') = samples bs ++ samples bs'
  | [], _, _ => rfl
  | [_], h, _ => absurd h (by rw [List.length_singleton]; decide)
  | a :: b :: bs, h, bs' => by
    have hbs : 2 ∣ bs.length := (Nat.dvd_add_left (dvd_refl 2)).mp h
    rw [List.cons_append, List.cons_append, samples, samples, samples_append hbs]
    rfl

theorem length_samples : ∀ bs : List UInt8, (samples bs).length = bs.length / 2
  | [] => rfl
  | [a] => by rw [List.length_singleton]; rfl
  | a :: b :: bs => by
    rw [samples, List.length_cons, length_samples bs, List.length_cons, List.length_cons]
    omega

theorem samples_take (n : ℕ) (bs : List UInt8) : samples (bs.take (2 * n)) = (samples bs).take n := by
  induction n generalizing bs with
  | zero => rfl
  | succ n ih =>
      match bs with
      | [] => rfl
      | [_] => rfl
      | a :: b :: bs =>
          rw [Nat.mul_succ, List.take_succ_cons, List.take_succ_cons, samples, samples, ih, List.take_succ_cons]

theorem samples_drop (n : ℕ) (bs : List UInt8) : samples (bs.drop (2 * n)) = (samples bs).drop n := by
  induction n generalizing bs with
  | zero => rfl
  | succ n ih =>
      match bs with
      | [] => rfl
      | [_] => rfl
      | a :: b :: bs => rw [Nat.mul_succ, List.drop_succ_cons, List.drop_succ_cons, samples, ih, List.drop_succ_cons]

theorem length_sampleBytes (xs : List Int16) : (sampleBytes xs).length = 2 * xs.length := by
  induction xs with
  | nil => rfl
  | cons x xs ih =>
      rw [sampleBytes, List.flatMap_cons, List.length_append, length_int16Bytes, List.length_cons]
      rw [sampleBytes] at ih
      omega

/-- A file that is written to at its end. -/
def AtEnd (file : File) (content : List UInt8) : Prop := file = ⟨content, content.length⟩

theorem AtEnd.fwrite {file : File} {content : List UInt8} (h : AtEnd file content) (buf : List UInt8) :
    AtEnd (fwrite file buf) (content ++ buf) := by
  obtain rfl := h
  simp [AtEnd, AudioProcess.fwrite]

/-- `main` writes `n` samples. -/
theorem AtEnd.fwriteS16 {file : File} {content : List UInt8} (h : AtEnd file content) (buf : ℕ → Int16) (n : ℕ) :
    ∃ more, AtEnd (fwriteS16 file buf n) (content ++ more) ∧ more.length = 2 * n := by
  refine ⟨_, h.fwrite _, ?_⟩
  rw [length_sampleBytes, length_readCells]

/-- The samples that `fread` gives are the next ones, and it leaves the later ones unless it gives fewer than
it was asked for. -/
theorem freadS16_spec (file : File) (n : ℕ) :
    (freadS16 file n).1 = (samples (file.content.drop file.pos)).take n ∧
    ((freadS16 file n).1.length = n →
      samples ((freadS16 file n).2.content.drop (freadS16 file n).2.pos) =
        (samples (file.content.drop file.pos)).drop n) := by
  have hitems : (freadS16 file n).1 = (samples (file.content.drop file.pos)).take n := samples_take n _
  refine ⟨hitems, fun hn => ?_⟩
  rw [hitems, List.length_take, length_samples] at hn
  have hpos : (freadS16 file n).2.pos = file.pos + 2 * n := by
    show file.pos + ((file.content.drop file.pos).take (2 * n)).length = _
    rw [List.length_take]
    omega
  have hcontent : (freadS16 file n).2.content = file.content := rfl
  rw [hpos, hcontent, ← List.drop_drop, samples_drop]

theorem readCells_getD (items : List Int16) (buf : ℕ → Int16) :
    readCells (fun k => items.getD k (buf k)) 0 items.length = items := by
  have hitem : ∀ k < items.length, items[k]? = some (items.getD (0 + k) (buf (0 + k))) := by
    intro k hk
    rw [Nat.zero_add, List.getD_eq_getElem?_getD, List.getElem?_eq_getElem hk, Option.getD_some]
  rw [readCells_eq_take hitem, List.take_length]

/-! ## The loop -/

variable {F : Type} [CFloat F] {c : Config F} {kiss : Kiss F c.winSize} {hdr : List UInt8} {all : List Int16}
  {s : MainState F}

theorem denoiseInt16_cases (kiss : Kiss F c.winSize) (h : Handle F) (x : ℕ → Int16) : ∃ h',
    (h.haveNblkTime + 1 ≠ maxNblkTime ∧ h'.haveNblkTime = h.haveNblkTime + 1 ∧
      blockThresholdDenoiseInt16 c kiss h (some x) c.halfWinSize = (.needMoreSamples, h')) ∨
    (h.haveNblkTime + 1 = maxNblkTime ∧ h'.haveNblkTime = 0 ∧
      blockThresholdDenoiseInt16 c kiss h (some x) c.halfWinSize = (.canOutput, h')) := by
  rw [denoiseInt16_eq, if_neg (not_not.mpr rfl), blockThresholdDenoiseFloat, denoiseWith_accepted]
  by_cases hfull : h.haveNblkTime + 1 = maxNblkTime
  · exact ⟨_, Or.inr ⟨hfull, rfl, if_neg (not_not.mpr hfull)⟩⟩
  · exact ⟨_, Or.inl ⟨hfull, rfl, if_pos hfull⟩⟩

/-- The samples fed are in the output behind `hdr` or pending; with the rest of the input they are `all`. -/
structure MainInv (c : Config F) (hdr : List UInt8) (all : List Int16) (s : MainState F) : Prop where
  pending : s.handle.haveNblkTime < maxNblkTime
  outFile : ∃ body, AtEnd s.outFile (hdr ++ body) ∧ body.length + 2 * flushSize c s.handle = 2 * s.fed.length
  fed : s.fed ++ samples (s.inFile.content.drop s.inFile.pos) = all

/-- All samples are fed, and as many are in the output. -/
structure MainDone (hdr : List UInt8) (all : List Int16) (s : MainState F) : Prop where
  outFile : ∃ body, AtEnd s.outFile (hdr ++ body) ∧ body.length = 2 * all.length
  fed : s.fed = all

theorem MainInv.flush (hs : MainInv c hdr all s) {readed : ℕ} {inbuf : ℕ → Int16} (inFile : File)
    (hall : s.fed ++ readCells inbuf 0 readed = all) :
    MainDone hdr all (mainFlush c kiss { s with inbuf := inbuf, inFile := inFile } readed) := by
  obtain ⟨body, hbody, hlen⟩ := hs.outFile
  have hroom : ¬ (c.macroSize : ℤ) < flushSize c s.handle := by
    have hle : flushSize c s.handle ≤ c.macroSize := by
      rw [flushSize, Config.macroSize, Nat.mul_comm]
      exact Nat.mul_le_mul_left _ hs.pending.le
    omega
  -- the flush writes the pending samples
  have hflushed : ∃ more, AtEnd (if ((flushSize c s.handle : ℕ) : ℤ) > 0 then
      fwriteS16 s.outFile (convertS16 (flushWindows c kiss s.handle).outbuf (flushSize c s.handle) s.outbuf)
        (flushSize c s.handle) else s.outFile) (hdr ++ body ++ more) ∧
      more.length = 2 * flushSize c s.handle := by
    split_ifs with hpos
    · exact hbody.fwriteS16 _ _
    · exact ⟨[], by rwa [List.append_nil], by rw [List.length_nil]; omega⟩
  obtain ⟨more, hmore, hmoreLen⟩ := hflushed
  obtain ⟨tail, htail, htailLen⟩ := hmore.fwriteS16 inbuf readed
  have hfed : s.fed.length + readed = all.length := by
    rw [← hall, List.length_append, length_readCells]
  simp only [mainFlush, blockThresholdFlushInt16, if_neg hroom]
  refine ⟨⟨body ++ (more ++ tail), ?_, ?_⟩, hall⟩
  · rw [← List.append_assoc, ← List.append_assoc]
    exact htail
  · rw [List.length_append, List.length_append]
    omega

variable (kiss) in
/-- A whole frame is denoised: its samples are pending, or with the earlier pending ones in the output. -/
theorem MainInv.denoise (hs : MainInv c hdr all s) (hhalf : 0 < c.halfWinSize) {inbuf : ℕ → Int16} (inFile : File)
    (hall : s.fed ++ readCells inbuf 0 c.halfWinSize ++ samples (inFile.content.drop inFile.pos) = all) :
    ∃ s', mainDenoise c kiss { s with inbuf := inbuf, inFile := inFile } = .next s' ∧ s'.inFile = inFile ∧
      MainInv c hdr all s' := by
  obtain ⟨body, hbody, hlen⟩ := hs.outFile
  have hdefined : ¬ (c.halfWinSize = 0 ∧ s.handle.haveNblkTime + 1 = maxNblkTime) := fun h => hhalf.ne' h.1
  have hfed : (s.fed ++ readCells inbuf 0 c.halfWinSize).length = s.fed.length + c.halfWinSize := by
    rw [List.length_append, length_readCells]
  rw [flushSize] at hlen
  obtain ⟨h', ⟨hmore, hhave, hd⟩ | ⟨hfull, hhave, hd⟩⟩ := denoiseInt16_cases kiss s.handle inbuf
  · refine ⟨⟨h', inbuf, s.outbuf, inFile, s.outFile, s.fed ++ readCells inbuf 0 c.halfWinSize⟩, ?_, rfl, ?_⟩
    · rw [mainDenoise, if_neg hdefined, hd]
    · have hpending := hs.pending
      refine ⟨by show h'.haveNblkTime < _; omega, ⟨body, hbody, ?_⟩, hall⟩
      show body.length + 2 * (h'.haveNblkTime * c.halfWinSize) =
        2 * (s.fed ++ readCells inbuf 0 c.halfWinSize).length
      rw [hfed, hhave, Nat.succ_mul s.handle.haveNblkTime]
      omega
  · have hroom : ¬ (c.macroSize : ℤ) < c.macroSize := lt_irrefl _
    let outbuf := convertS16 h'.outbuf c.macroSize s.outbuf
    obtain ⟨more, hmore, hmoreLen⟩ := hbody.fwriteS16 outbuf c.macroSize
    refine ⟨⟨h', inbuf, outbuf, inFile, fwriteS16 s.outFile outbuf c.macroSize,
      s.fed ++ readCells inbuf 0 c.halfWinSize⟩, ?_, rfl, ?_⟩
    · rw [mainDenoise, if_neg hdefined, hd]
      simp only [blockThresholdOutputInt16, if_neg hroom]
      rfl
    · refine ⟨by show h'.haveNblkTime < _; rw [hhave]; decide, ⟨body ++ more, ?_, ?_⟩, hall⟩
      · rw [← List.append_assoc]
        exact hmore
      · show (body ++ more).length + 2 * (h'.haveNblkTime * c.halfWinSize) =
          2 * (s.fed ++ readCells inbuf 0 c.halfWinSize).length
        have hmacro : c.macroSize = (s.handle.haveNblkTime + 1) * c.halfWinSize := by
          rw [hfull, Config.macroSize, Nat.mul_comm]
        rw [hfed, hhave, List.length_append, hmoreLen, hmacro, Nat.succ_mul s.handle.haveNblkTime]
        omega

variable {n : ℤ}

/-- The samples that are left in the input. -/
def samplesLeft (s : MainState F) : ℕ := (samples (s.inFile.content.drop s.inFile.pos)).length

/-- **One turn.** -/
theorem MainInv.turn (hs : MainInv c hdr all s) (hhalf : 0 < c.halfWinSize) (hn : c.halfWinSize < n) :
    TurnSpec (MainInv c hdr all) samplesLeft (fun o => ∃ s', o = .ended s' ∧ MainDone hdr all s') s
      (mainTurn c kiss n s) := by
  obtain ⟨hitems, hrest⟩ := freadS16_spec s.inFile c.halfWinSize
  have hcells := readCells_getD (freadS16 s.inFile c.halfWinSize).1 s.inbuf
  rw [mainTurn, if_neg (not_le.mpr hn)]
  simp only
  split_ifs with hshort
  · -- a short read gives all that is left
    refine ⟨_, rfl, hs.flush _ ?_⟩
    rw [hcells, hitems, List.take_of_length_le, hs.fed]
    rw [hitems, List.length_take] at hshort
    omega
  · have hlen := not_not.mp hshort
    rw [hlen] at hcells
    have hleft := hrest hlen
    obtain ⟨s', hnext, hfile, hs'⟩ := hs.denoise kiss hhalf (freadS16 s.inFile c.halfWinSize).2 <| by
      rw [hcells, hitems, hleft, List.append_assoc, List.take_append_drop, hs.fed]
    rw [hnext]
    refine ⟨hs', ?_⟩
    rw [hitems, List.length_take] at hlen
    rw [samplesLeft, hfile, hleft, List.length_drop, samplesLeft]
    omega

variable (kiss) in
/-- **The loop** feeds every sample of the input from its position on, and writes as many. -/
theorem MainInv.loop (hs : MainInv c hdr all s) (hhalf : 0 < c.halfWinSize) (hn : c.halfWinSize < n) :
    ∃ s', Yields (mainTurn c kiss n) s (.ended s') ∧ MainDone hdr all s' := by
  obtain ⟨-, hyields, s', rfl, hdone⟩ := yields_of_variant samplesLeft (fun s hs => hs.turn hhalf hn) hs
  exact ⟨s', hyields, hdone⟩

/-- Frames without samples never end the input, and the eighth makes `blockThreshold_wiener` divide by
zero. -/
theorem yields_undefined_of_empty (hhalf : c.halfWinSize = 0) (hn : c.halfWinSize < n)
    (hpending : s.handle.haveNblkTime < maxNblkTime) : Yields (mainTurn c kiss n) s .undefined := by
  have hturn : ∀ s : MainState F, s.handle.haveNblkTime < maxNblkTime →
      TurnSpec (fun s => s.handle.haveNblkTime < maxNblkTime) (fun s => maxNblkTime - s.handle.haveNblkTime)
        (· = .undefined) s (mainTurn c kiss n s) := by
    intro s hs
    have hread : (freadS16 s.inFile c.halfWinSize).1.length = c.halfWinSize := by
      rw [(freadS16_spec s.inFile c.halfWinSize).1, hhalf]
      rfl
    rw [mainTurn, if_neg (not_le.mpr hn)]
    simp only [if_neg (not_not.mpr hread)]
    rw [mainDenoise]
    split_ifs with hzero
    · rfl
    · obtain ⟨h', ⟨hmore, hhave, hd⟩ | ⟨hfull, -, -⟩⟩ := denoiseInt16_cases kiss s.handle
        fun k => (freadS16 s.inFile c.halfWinSize).1.getD k (s.inbuf k)
      · rw [hd]
        show h'.haveNblkTime < maxNblkTime ∧ maxNblkTime - h'.haveNblkTime < maxNblkTime - s.handle.haveNblkTime
        omega
      · exact absurd ⟨hhalf, hfull⟩ hzero
  obtain ⟨-, hyields, rfl⟩ := yields_of_variant _ hturn hpending
  exact hyields

/-! ## The program -/

theorem writeHeader_eq (h : WavHeader) (file : File) :
    writeHeader h file = (0, h.stamped, fwrite file h.stamped.bytes) := rfl

/-- The program feeds exactly the samples of the data chunk `payload`, and writes as many behind the header
`h`. -/
def Conserves (kiss : ∀ n, Kiss F n) (env : MainEnv F) (frameMs : ℤ) (inFile : File) (h : WavHeader)
    (payload : List UInt8) : Prop :=
  ∃ e, MainReturns kiss env frameMs inFile (.ended e) ∧ e.fed = samples payload ∧
    ∃ body, e.outFile.content = h.stamped.bytes ++ body ∧ body.length = payload.length

/-- The divisions by the number of channels are defined. -/
def Divides (h : WavHeader) : Prop :=
  h.format.channels.toInt ≠ 0 ∧ ¬ (h.data.size.toInt = intMin ∧ h.format.channels.toInt = -1)

/-- The loop runs: its buffers are allocated, and the data chunk has more than `128` bytes for each sample of a
frame and each channel. -/
def LoopRuns (env : MainEnv F) (c : Config F) (h : WavHeader) : Prop :=
  env.mallocInbuf ∧ env.mallocOutbuf ∧
    (c.halfWinSize : ℤ) < h.data.size.toInt.tdiv (128 * h.format.channels.toInt)

theorem numSamples_eq {h : WavHeader} (hbits : h.format.bitsPerSample = 16) (hdiv : Divides h) :
    numSamples h = some (h.data.size.toInt.tdiv (128 * h.format.channels.toInt)) := by
  have hchannels : ¬ (h.format.channels.toInt = 0 ∨
      (h.data.size.toInt = intMin ∧ h.format.channels.toInt = -1)) := not_or.mpr hdiv
  have h16 : (16 : Int16).toInt = 16 := rfl
  have h128 : h.format.channels.toInt * (16 * 8) = 128 * h.format.channels.toInt := by ring
  simp only [numSamples, div, hbits, h16, if_neg hchannels, Option.bind_eq_bind, Option.bind_some]
  rw [if_neg (by omega), Option.bind_some, if_neg (by omega), tdiv_tdiv, tdiv_tdiv, h128]

theorem numSamples_eq_none {h : WavHeader} (hdiv : ¬ Divides h) : numSamples h = none := by
  have hchannels : h.format.channels.toInt = 0 ∨
      (h.data.size.toInt = intMin ∧ h.format.channels.toInt = -1) := by
    by_contra hne
    exact hdiv (not_or.mp hne)
  simp only [numSamples, div, if_pos hchannels, Option.bind_eq_bind, Option.bind_none]

/-- `inFile` is accepted: `read_header` finds the header `h` with 16 bits per sample, then come the `data.size`
bytes `payload` and the bytes `rest`, and `blockThreshold_init` returns the denoiser `g` for the frames and the
sampling rate. -/
structure Accepted (env : MainEnv F) (frameMs : ℤ) (inFile : File) (h : WavHeader) (payload rest : List UInt8)
    (c : Config F) (g : Handle F) : Prop where
  read : ∃ f, readHeader env.header inFile = some (0, h, f) ∧ f.content.drop f.pos = payload ++ rest
  bits : h.format.bitsPerSample = 16
  size : payload.length = h.data.size.toUInt32.toNat
  whole : 2 ∣ payload.length
  init : blockThresholdInit env.mallocs env.junkWin env.junk (toInt32 frameMs) h.format.samplePerSec.toInt =
    .ok (c, g)

variable {kiss : ∀ n, Kiss F n} {env : MainEnv F} {frameMs : ℤ} {inFile : File} {h : WavHeader}
  {payload rest : List UInt8} {g : Handle F} {o o' : Outcome MainEnd}

theorem MainReturns.unique (ho : MainReturns kiss env frameMs inFile o)
    (ho' : MainReturns kiss env frameMs inFile o') : o = o' := by
  unfold MainReturns at ho ho'
  cases hstart : startMain env frameMs inFile with
  | inl r =>
      rw [hstart] at ho ho'
      exact ho.symm.trans ho'
  | inr r =>
      rw [hstart] at ho ho'
      obtain ⟨r, hr, rfl⟩ := ho
      obtain ⟨r', hr', rfl⟩ := ho'
      rw [hr.unique hr']

theorem conserves_iff_of_returns {e : MainEnd} (he : MainReturns kiss env frameMs inFile (.ended e)) :
    Conserves kiss env frameMs inFile h payload ↔
      e.fed = samples payload ∧ ∃ body, e.outFile.content = h.stamped.bytes ++ body ∧
        body.length = payload.length := by
  constructor
  · rintro ⟨e', he', hcons⟩
    obtain rfl := Outcome.ended.inj (he.unique he')
    exact hcons
  · exact fun hcons => ⟨e, he, hcons⟩

theorem not_conserves_of_undefined (ho : MainReturns kiss env frameMs inFile .undefined) :
    ¬ Conserves kiss env frameMs inFile h payload := by
  rintro ⟨e, he, -⟩
  cases ho.unique he

namespace Accepted

variable (hin : Accepted env frameMs inFile h payload rest c g)

include hin

theorem returns_of_not_divides (hdiv : ¬ Divides h) : MainReturns kiss env frameMs inFile .undefined := by
  obtain ⟨f, hread, -⟩ := hin.read
  have hnone : numSamples h.stamped = none := numSamples_eq_none hdiv
  rw [MainReturns, startMain, hread]
  simp only [writeHeader_eq, hnone]

/-- `main` up to its loop. -/
theorem startMain_eq (hdiv : Divides h) : ∃ f, f.content.drop f.pos = payload ++ rest ∧
    startMain env frameMs inFile = if env.mallocInbuf && env.mallocOutbuf then
        .inr (c, h.data.size.toInt.tdiv (128 * h.format.channels.toInt),
          ⟨g, env.inbuf, env.outbuf, f, fwrite ⟨[], 0⟩ h.stamped.bytes, []⟩)
      else .inl (.ended ⟨-1, [], fwrite ⟨[], 0⟩ h.stamped.bytes⟩) := by
  obtain ⟨f, hread, hdata⟩ := hin.read
  have hsome : numSamples h.stamped = some (h.data.size.toInt.tdiv (128 * h.format.channels.toInt)) :=
    numSamples_eq (h := h.stamped) hin.bits hdiv
  have hrate : h.stamped.format.samplePerSec = h.format.samplePerSec := rfl
  refine ⟨f, hdata, ?_⟩
  rw [startMain, hread]
  simp only [writeHeader_eq, hsome, hrate, hin.init]

variable (kiss) in
/-- Without its loop `main` writes the header only. -/
theorem returns_of_not_loopRuns (hdiv : Divides h) (hloop : ¬ LoopRuns env c h) :
    ∃ ret, MainReturns kiss env frameMs inFile (.ended ⟨ret, [], fwrite ⟨[], 0⟩ h.stamped.bytes⟩) := by
  obtain ⟨f, hdata, hstart⟩ := hin.startMain_eq hdiv
  simp only [MainReturns, hstart]
  split_ifs with hmalloc
  · have hn : h.data.size.toInt.tdiv (128 * h.format.channels.toInt) ≤ c.halfWinSize := by
      rw [Bool.and_eq_true] at hmalloc
      exact not_lt.mp fun hlt => hloop ⟨hmalloc.1, hmalloc.2, hlt⟩
    exact ⟨0, _, yields_leave (if_pos hn), rfl⟩
  · exact ⟨-1, rfl⟩

theorem haveNblkTime : g.haveNblkTime = 0 := by
  obtain rfl := congrArg Prod.snd (init_eq hin.init).2.2
  rfl

variable (kiss) in
/-- With its loop `main` feeds the rest of the file too. -/
theorem returns_of_loopRuns (hdiv : Divides h) (hloop : LoopRuns env c h) (hhalf : 0 < c.halfWinSize) :
    ∃ e body, MainReturns kiss env frameMs inFile (.ended e) ∧ e.fed = samples (payload ++ rest) ∧
      e.outFile.content = h.stamped.bytes ++ body ∧ body.length = 2 * (samples (payload ++ rest)).length := by
  obtain ⟨f, hdata, hstart⟩ := hin.startMain_eq hdiv
  have hstartInv : MainInv c h.stamped.bytes (samples (payload ++ rest))
      ⟨g, env.inbuf, env.outbuf, f, fwrite ⟨[], 0⟩ h.stamped.bytes, []⟩ := by
    have hempty : AtEnd ⟨[], 0⟩ [] := rfl
    refine ⟨by rw [hin.haveNblkTime]; decide, ⟨[], hempty.fwrite _, ?_⟩, by rw [hdata]; rfl⟩
    rw [flushSize, hin.haveNblkTime, Nat.zero_mul]
    rfl
  obtain ⟨s', hyields, ⟨body, hbody, hlen⟩, hfed⟩ := hstartInv.loop (kiss c.winSize) hhalf hloop.2.2
  refine ⟨⟨0, s'.fed, s'.outFile⟩, body, ?_, hfed, ?_, hlen⟩
  · rw [MainReturns, hstart, if_pos (by rw [hloop.1, hloop.2.1]; rfl)]
    exact ⟨_, hyields, rfl⟩
  · rw [show s'.outFile = _ from hbody]

/-- Frames of no samples. -/
theorem returns_of_empty (hdiv : Divides h) (hloop : LoopRuns env c h) (hhalf : c.halfWinSize = 0) :
    MainReturns kiss env frameMs inFile .undefined := by
  obtain ⟨f, hdata, hstart⟩ := hin.startMain_eq hdiv
  rw [MainReturns, hstart, if_pos (by rw [hloop.1, hloop.2.1]; rfl)]
  exact ⟨_, yields_undefined_of_empty hhalf hloop.2.2 (by rw [hin.haveNblkTime]; decide), rfl⟩

end Accepted

/-- **The denoise program conserves samples exactly when** its divisions are defined, and its loop runs with
frames that are not empty and no sample follows the data chunk, or it does not run and there are no samples. -/
theorem conserves_iff (kiss : ∀ n, Kiss F n) (env : MainEnv F) (frameMs : ℤ) (inFile : File) (h : WavHeader)
    (payload rest : List UInt8) (c : Config F) (g : Handle F)
    (hin : Accepted env frameMs inFile h payload rest c g) :
    Conserves kiss env frameMs inFile h payload ↔ Divides h ∧
      ((LoopRuns env c h ∧ 0 < c.halfWinSize ∧ rest.length < 2) ∨ (¬ LoopRuns env c h ∧ payload = [])) := by
  by_cases hdiv : Divides h
  swap
  · exact iff_of_false (not_conserves_of_undefined (hin.returns_of_not_divides hdiv)) fun hc => hdiv hc.1
  by_cases hloop : LoopRuns env c h
  · rcases Nat.eq_zero_or_pos c.halfWinSize with hhalf | hhalf
    · refine iff_of_false (not_conserves_of_undefined (hin.returns_of_empty hdiv hloop hhalf)) ?_
      rintro ⟨-, ⟨-, hpos, -⟩ | ⟨hnot, -⟩⟩
      · exact hpos.ne' hhalf
      · exact hnot hloop
    · obtain ⟨e, body, he, hfed, hcontent, hlen⟩ := hin.returns_of_loopRuns kiss hdiv hloop hhalf
      have hpayload := hin.whole
      rw [length_samples, List.length_append] at hlen
      rw [conserves_iff_of_returns he, hfed, hcontent]
      constructor
      · rintro ⟨-, body', hbody, hlen'⟩
        rw [← List.append_cancel_left hbody] at hlen'
        exact ⟨hdiv, Or.inl ⟨hloop, hhalf, by omega⟩⟩
      · rintro ⟨-, ⟨-, -, hrest⟩ | ⟨hnot, -⟩⟩
        · have hnone : samples rest = [] := List.eq_nil_of_length_eq_zero (by rw [length_samples]; omega)
          refine ⟨?_, body, rfl, by omega⟩
          rw [samples_append hpayload, hnone, List.append_nil]
        · exact absurd hloop hnot
  · obtain ⟨ret, hret⟩ := hin.returns_of_not_loopRuns kiss hdiv hloop
    have hcontent : (fwrite ⟨[], 0⟩ h.stamped.bytes).content = h.stamped.bytes := by simp [fwrite]
    rw [conserves_iff_of_returns hret, hcontent]
    constructor
    · rintro ⟨-, body, hbody, hlen⟩
      rw [List.self_eq_append_right.mp hbody] at hlen
      exact ⟨hdiv, Or.inr ⟨hloop, List.eq_nil_of_length_eq_zero hlen.symm⟩⟩
    · rintro ⟨-, ⟨hruns, -⟩ | ⟨-, rfl⟩⟩
      · exact absurd hruns hloop
      · exact ⟨rfl, [], (List.append_nil _).symm, rfl⟩

/-! ## Mono files at 1000 Hz -/

/-- The header of `size` bytes of 16-bit samples. -/
def monoHeader (size : Int32) : WavHeader :=
  ⟨⟨.riff, 36 + size, .wave⟩, ⟨.fmt, 16, 1, 1, 1000, 2000, 2, 16⟩, ⟨.data, size⟩⟩

/-- A file of the header and its samples. -/
def monoFile (size : Int32) (payload : List UInt8) : File := ⟨(monoHeader size).bytes ++ payload, 0⟩

/-- Memory of zeros, and no allocation fails. -/
noncomputable def zeroEnv : MainEnv ℝ := ⟨tagsOnly, fun _ => 0, zeroHandle, fun _ => 0, fun _ => 0, true, true, true⟩

/-- The transforms of silence. -/
noncomputable def zeroKiss (n : ℕ) : Kiss ℝ n := ⟨fun _ _ => ⟨0, 0⟩, fun _ _ => 0⟩

theorem accepted_mono (size : Int32) (payload : List UInt8) (hsize : payload.length = size.toUInt32.toNat)
    (hwhole : 2 ∣ payload.length) :
    Accepted zeroEnv 2 (monoFile size payload) (monoHeader size) payload [] pairConfig pairHandle where
  read := by
    refine ⟨_, readHeader_bytes ⟨rfl, rfl, rfl, rfl⟩ tagsOnly payload, ?_⟩
    rw [List.append_nil]
    exact (drop_bytes (monoHeader size) payload).2.2
  bits := rfl
  size := hsize
  whole := hwhole
  init := by
    have hms : toInt32 2 = 2 := by decide
    rw [hms]
    exact pairHandle_init

/-- `128` samples of silence, in frames of one sample. -/
theorem conserves_iff_mono :
    Conserves zeroKiss zeroEnv 2 (monoFile 256 (List.replicate 256 0)) (monoHeader 256) (List.replicate 256 0) := by
  refine (conserves_iff zeroKiss zeroEnv 2 _ _ _ [] pairConfig pairHandle
    (accepted_mono 256 _ List.length_replicate (by rw [List.length_replicate]; decide))).mpr ⟨?_, Or.inl ⟨?_, ?_, ?_⟩⟩
  · exact ⟨by decide, by decide⟩
  · exact ⟨rfl, rfl, by decide⟩
  · decide
  · decide

/-- A file of one sample: the loop does not run, and nothing is written. -/
theorem not_conserves_sample :
    Accepted zeroEnv 2 (monoFile 2 [1, 0]) (monoHeader 2) [1, 0] [] pairConfig pairHandle ∧
      ¬ Conserves zeroKiss zeroEnv 2 (monoFile 2 [1, 0]) (monoHeader 2) [1, 0] := by
  have hin := accepted_mono 2 [1, 0] rfl (by decide)
  have hidle : ¬ LoopRuns zeroEnv pairConfig (monoHeader 2) := fun hloop => absurd hloop.2.2 (by decide)
  refine ⟨hin, fun hcons => ?_⟩
  obtain ⟨ret, hret⟩ := hin.returns_of_not_loopRuns zeroKiss ⟨by decide, by decide⟩ hidle
  have hfed : [] = samples [1, 0] := ((conserves_iff_of_returns hret).mp hcons).1
  exact absurd hfed (by decide)

end AudioProcess
