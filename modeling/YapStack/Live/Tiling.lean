import YapStack.Live.Loop

set_option linter.unusedSectionVars false

namespace YapStack.Live.Loop

open Spans

/-- The sample is dispatched, or the open utterance still has it. -/
def Source.Kept (s : Source) (x : Nat) : Prop :=
  s.Sent x ∨ s.vad.isSpeaking = true ∧ s.vad.speechStartPos ≤ x

/-- What holds of a source at any time. `front` bounds what is dispatched. -/
structure Sound (f32 : Rounding) (front : Nat) (s : Source) : Prop where
  written : s.vad.speechStartPos ≤ s.ring.writePos
  early : s.vad.earliestNextChunkPos ≤ s.vad.speechStartPos
  read : s.vad.silero.readPos ≤ s.ring.writePos
  scored : s.scoredTo ≤ s.vad.silero.readPos
  drain : s.vad.forceDrain = true → s.vad.isSpeaking = true
  last : ∀ f ∈ s.vad.silero.lastFrame,
    f.audio.start ≤ f.audio.stop ∧ f.audio.stop ≤ s.scoredTo
  stop : ∀ limit ∈ s.stopAt, limit ≤ s.ring.writePos + tailSamplesFor s.vad.format
  nonempty : ∀ c ∈ s.sent, c.audio.start < c.audio.stop
  offset : ∀ c ∈ s.sent, c.audioOffset = audioOffset f32 s.vad c.audio.start
  atMostMax : ∀ c ∈ s.sent, c.origin = .live →
    c.audio.length ≤ maxRawSamplesForDuration parakeet.maxChunkDuration s.vad.format
  increasing : Increasing (s.sent.map PreparedChunk.audio)
  front : ∀ c ∈ s.sent, c.audio.stop ≤ front
  heardTo : ∀ r ∈ s.heard, ∀ x ∈ r, x < s.scoredTo
  kept : ∀ r ∈ s.heard, ∀ x ∈ r, s.Kept x

/-- Everything from `u` on is dispatched up to the end of the last chunk, and the open
utterance continues from there or begins by `u`. -/
structure Floor (u : Nat) (s : Source) : Prop where
  scored : u ≤ s.scoredTo
  last : ∀ f ∈ s.vad.silero.lastFrame, u ≤ f.audio.start
  sent : ∀ x, u ≤ x → x < s.vad.earliestNextChunkPos → s.Sent x
  opened : s.vad.isSpeaking = true →
    s.vad.speechStartPos ≤ max u s.vad.earliestNextChunkPos

/-- The frames of the current batch: scored, not polled yet. -/
structure Batch (u : Nat) (s : Source) (frames : List Frame) : Prop where
  sorted : frames.Pairwise (fun f g => f.audio.start ≤ g.audio.start)
  floor : ∀ f ∈ frames, u ≤ f.audio.start
  ordered : ∀ f ∈ frames, f.audio.start ≤ f.audio.stop ∧ f.audio.stop ≤ s.scoredTo
  last : ∀ f ∈ frames, ∀ l ∈ s.vad.silero.lastFrame, f.audio.start ≤ l.audio.start

/-- Only a piece of the pending audio that is too short is left of what came before the stop. -/
def Flushed (s : Source) (limit : Nat) : Prop :=
  ∃ rest : Span, rest.start = s.vad.speechStartPos ∧ TooShort s.vad.format rest ∧
    ∀ r ∈ s.heard, ∀ x ∈ r, x < limit → s.Sent x ∨ x ∈ rest

/-- The ranges that are still to be copied after `c`. -/
structure Copying (s : Source) (c limit : Nat) (ranges : List Span) : Prop where
  chain : Chain c limit ranges
  whole : ∀ r ∈ ranges, r.start = s.vad.speechStartPos ∧ r.stop = limit ∨
    maxRawSamplesForDuration minSplitPiece s.vad.format ≤ r.length
  bound : limit ≤ s.ring.writePos + tailSamplesFor s.vad.format
  copied : ∀ r ∈ s.heard, ∀ x ∈ r, x < c → s.Sent x

def Ticking (f32 : Rounding) (s : Source) : Prop :=
  Sound f32 s.vad.earliestNextChunkPos s ∧ ∃ u, Floor u s

def Ready (f32 : Rounding) (s : Source) (frames : List Frame) : Prop :=
  Sound f32 s.vad.earliestNextChunkPos s ∧ ∃ u, Floor u s ∧ Batch u s frames

def Inv (f32 : Rounding) (s : State) : Prop :=
  match s.phase with
  | .select => Ticking f32 s.toSource
  | .extracted newPos _ =>
    Ticking f32 s.toSource ∧ s.vad.silero.readPos ≤ newPos ∧ newPos ≤ s.ring.writePos
  | .fed frames => Ready f32 s.toSource frames
  | .drained frames => Ready f32 s.toSource frames
  | .polled action =>
    Ticking f32 s.toSource ∧ (action ≠ .none → s.vad.isSpeaking = true)
  | .dispatching _ currentPos =>
    Ticking f32 s.toSource ∧ s.vad.isSpeaking = true ∧
      s.vad.silero.readPos ≤ currentPos ∧ currentPos ≤ s.ring.writePos
  | .stopping limit =>
    Sound f32 s.vad.earliestNextChunkPos s.toSource ∧
      limit ≤ s.ring.writePos + tailSamplesFor s.vad.format
  | .copying limit ranges =>
    ∃ c, Sound f32 c s.toSource ∧
      (Copying s.toSource c limit ranges ∨ ranges = [] ∧ Flushed s.toSource limit)
  | .flushed limit => (∃ c, Sound f32 c s.toSource) ∧ Flushed s.toSource limit
  | .failing _ => Sound f32 s.vad.earliestNextChunkPos s.toSource
  | .failingDispatch currentPos =>
    Sound f32 s.vad.earliestNextChunkPos s.toSource ∧
      s.vad.silero.readPos ≤ currentPos ∧ currentPos ≤ s.ring.writePos

section Offsets

variable (f32 : Rounding)

theorem samplesPerSecond_nonneg (fmt : Format) : 0 ≤ samplesPerSecond f32 fmt :=
  f32.nonneg _ (mul_nonneg (f32.nonneg _ (Nat.cast_nonneg _)) (f32.nonneg _ (Nat.cast_nonneg _)))

theorem audioOffset_mono (vad : SourceVadState) {a b : Nat} (h : a ≤ b) :
    audioOffset f32 vad a ≤ audioOffset f32 vad b := by
  have hsub : ((a - vad.sessionStartPos : Nat) : ℚ) ≤ ((b - vad.sessionStartPos : Nat) : ℚ) :=
    Nat.cast_le.mpr (Nat.sub_le_sub_right h _)
  have hdiv := div_le_div_of_nonneg_right (f32.mono hsub) (samplesPerSecond_nonneg f32 vad.format)
  exact f32.mono (add_le_add_right (f32.mono hdiv) _)

/-- Chunks in order have offsets in order. -/
theorem offsets_sorted {front : Nat} {s : Source} (h : Sound f32 front s) :
    (s.sent.map PreparedChunk.audioOffset).Pairwise (· ≤ ·) := by
  have hinc := List.pairwise_map.mp h.increasing
  refine List.pairwise_map.mpr (hinc.imp_of_mem fun {a b} ha hb hab => ?_)
  rw [h.offset a ha, h.offset b hb]
  exact audioOffset_mono f32 s.vad ((h.nonempty a ha).le.trans hab)

theorem maxRawSamples_seconds_le (fmt : Format) {n : Nat}
    (h : n ≤ maxRawSamplesForDuration parakeet.maxChunkDuration fmt) :
    n * nanosPerSecond ≤ parakeet.maxChunkDuration * fmt.sampleRate * fmt.channels := by
  have hmax : maxRawSamplesForDuration parakeet.maxChunkDuration fmt =
      (9 + 1) * fmt.sampleRate * fmt.channels := maxRawSamples_seconds 9 fmt
  rw [hmax] at h
  have e : parakeet.maxChunkDuration * fmt.sampleRate * fmt.channels =
      (9 + 1) * fmt.sampleRate * fmt.channels * nanosPerSecond := by
    simp only [parakeet, fromMillis, nanosPerSecond]
    ring
  rw [e]
  exact Nat.mul_le_mul_right _ h

end Offsets

variable {f32 : Rounding}

theorem Sound.imp_front {front front' : Nat} {s : Source} (h : Sound f32 front s)
    (hle : front ≤ front') : Sound f32 front' s :=
  { h with front := fun c hc => (h.front c hc).trans hle }

/-- Writes, finishing tasks and a stop request leave the loop's own state alone. -/
theorem Inv.frame {s t : State} (hphase : t.phase = s.phase) (hvad : t.vad = s.vad)
    (hscored : t.scoredTo = s.scoredTo) (hsent : t.sent = s.sent) (hheard : t.heard = s.heard)
    (hring : s.ring.writePos ≤ t.ring.writePos)
    (hstop : (∀ limit ∈ s.stopAt, limit ≤ s.ring.writePos + tailSamplesFor s.vad.format) →
      ∀ limit ∈ t.stopAt, limit ≤ t.ring.writePos + tailSamplesFor t.vad.format)
    (h : Inv f32 s) : Inv f32 t := by
  obtain ⟨⟨ring, vad, task, stopAt, scoredTo, sent, heard⟩, phase⟩ := s
  obtain ⟨⟨ring', vad', task', stopAt', scoredTo', sent', heard'⟩, phase'⟩ := t
  dsimp only at hphase hvad hscored hsent hheard hring hstop
  subst phase' vad' scoredTo' sent' heard'
  have hsound : ∀ front, Sound f32 front ⟨ring, vad, task, stopAt, scoredTo, sent, heard⟩ →
      Sound f32 front ⟨ring', vad, task', stopAt', scoredTo, sent, heard⟩ :=
    fun front hs =>
      { hs with
        written := hs.written.trans hring
        read := hs.read.trans hring
        stop := hstop hs.stop }
  have hfloor : ∀ u, Floor u ⟨ring, vad, task, stopAt, scoredTo, sent, heard⟩ →
      Floor u ⟨ring', vad, task', stopAt', scoredTo, sent, heard⟩ :=
    fun u hu => { hu with }
  have hbatch : ∀ u frames, Batch u ⟨ring, vad, task, stopAt, scoredTo, sent, heard⟩ frames →
      Batch u ⟨ring', vad, task', stopAt', scoredTo, sent, heard⟩ frames :=
    fun u frames hb => { hb with }
  have hticking : Ticking f32 ⟨ring, vad, task, stopAt, scoredTo, sent, heard⟩ →
      Ticking f32 ⟨ring', vad, task', stopAt', scoredTo, sent, heard⟩ :=
    fun h => ⟨hsound _ h.1, h.2.imp hfloor⟩
  cases phase with
  | select => exact hticking h
  | extracted newPos audio => exact ⟨hticking h.1, h.2.1, h.2.2.trans hring⟩
  | fed frames | drained frames =>
    obtain ⟨hs, u, hu, hb⟩ := h
    exact ⟨hsound _ hs, u, hfloor u hu, hbatch u frames hb⟩
  | polled action => exact ⟨hticking h.1, h.2⟩
  | dispatching isForceChunk currentPos =>
    exact ⟨hticking h.1, h.2.1, h.2.2.1, h.2.2.2.trans hring⟩
  | stopping limit => exact ⟨hsound _ h.1, h.2.trans (Nat.add_le_add_right hring _)⟩
  | copying limit ranges =>
    obtain ⟨c, hs, hcopy | hdone⟩ := h
    · exact ⟨c, hsound c hs, .inl { hcopy with
        bound := hcopy.bound.trans (Nat.add_le_add_right hring _) }⟩
    · exact ⟨c, hsound c hs, .inr hdone⟩
  | flushed limit =>
    obtain ⟨⟨c, hs⟩, hdone⟩ := h
    exact ⟨⟨c, hsound c hs⟩, hdone⟩
  | failing again => exact hsound _ h
  | failingDispatch currentPos => exact ⟨hsound _ h.1, h.2.1, h.2.2.trans hring⟩

/-- A loop that ticks can be found at any check for a stop. -/
theorem Inv.sound_of_atStopCheck {s : State} (h : Inv f32 s) (hphase : s.phase.atStopCheck = true) :
    Sound f32 s.vad.earliestNextChunkPos s.toSource := by
  obtain ⟨source, phase⟩ := s
  cases phase with
  | select => exact h.1
  | extracted newPos audio => exact h.1.1
  | fed frames | drained frames => exact h.1
  | _ => simp only [Phase.atStopCheck, Bool.false_eq_true] at hphase

theorem extractSourceAudio_pos {ring : Ring} {pos : Nat} (h : pos ≤ ring.writePos) :
    pos ≤ (extractSourceAudio ring pos).2 ∧ (extractSourceAudio ring pos).2 ≤ ring.writePos := by
  unfold extractSourceAudio snapshotSinceWithPos
  split <;> dsimp only <;> omega

section Frames

theorem InOrder.bounds {a b : Nat} {frames : List Frame} (h : InOrder a b frames) :
    ∀ f ∈ frames, a ≤ f.audio.start ∧ f.audio.start ≤ f.audio.stop ∧ f.audio.stop ≤ b := by
  induction frames generalizing a with
  | nil => exact fun f hf => (List.not_mem_nil hf).elim
  | cons g frames ih =>
    obtain ⟨h1, h2, h3, hrest⟩ := h
    intro f hf
    rcases List.mem_cons.mp hf with rfl | hf
    · exact ⟨h1, h2, h3⟩
    · obtain ⟨h4, h5, h6⟩ := ih hrest f hf
      exact ⟨by omega, h5, h6⟩

theorem InOrder.sorted {a b : Nat} {frames : List Frame} (h : InOrder a b frames) :
    frames.Pairwise (fun f g => f.audio.start ≤ g.audio.start ∧ f.audio.stop ≤ g.audio.stop) := by
  induction frames generalizing a with
  | nil => exact List.Pairwise.nil
  | cons g frames ih =>
    obtain ⟨_, h2, _, hrest⟩ := h
    refine List.pairwise_cons.mpr ⟨fun f hf => ?_, ih hrest⟩
    obtain ⟨h4, h5, _⟩ := hrest.bounds f hf
    omega

theorem InOrder.le_getLast {a b : Nat} {frames : List Frame} (h : InOrder a b frames)
    {l : Frame} (hl : frames.getLast? = some l) :
    ∀ f ∈ frames, f.audio.start ≤ l.audio.start ∧ f.audio.stop ≤ l.audio.stop := by
  obtain ⟨init, rfl⟩ := List.getLast?_eq_some_iff.mp hl
  intro f hf
  rcases List.mem_append.mp hf with hf | hf
  · exact (List.pairwise_append.mp h.sorted).2.2 f hf l (List.mem_singleton_self l)
  · obtain rfl := List.mem_singleton.mp hf
    exact ⟨le_rfl, le_rfl⟩

end Frames

/-- Scored frames extend the stream: nothing that was kept or dispatched is touched. -/
theorem feed_ready {s : State} {newPos : Nat} {frames : List Frame} (pending : Nat)
    (h : Ticking f32 s.toSource) (hread : s.vad.silero.readPos ≤ newPos)
    (hwritten : newPos ≤ s.ring.writePos) (hframes : InOrder s.scoredTo newPos frames) :
    Ready f32 (feed s newPos frames pending).toSource frames := by
  obtain ⟨hs, u, hu⟩ := h
  have hbounds := hframes.bounds
  cases hl : frames.getLast? with
  | none =>
    obtain rfl := List.getLast?_eq_none_iff.mp hl
    have hscored := hs.scored
    refine ⟨{ hs with read := hwritten, scored := hscored.trans hread }, u,
      { hu with }, ⟨List.Pairwise.nil, ?_, ?_, ?_⟩⟩ <;>
      exact fun f hf => (List.not_mem_nil hf).elim
  | some l =>
    have hmem : l ∈ frames := List.mem_of_getLast? hl
    obtain ⟨hl1, hl2, hl3⟩ := hbounds l hmem
    have hto : (feed s newPos frames pending).scoredTo = l.audio.stop := by simp [feed, hl]
    have hlast : (feed s newPos frames pending).vad.silero.lastFrame = some l := by
      simp [feed, SourceVadState.feedSilero, hl]
    have hfloor := hu.scored
    refine ⟨{ hs with
        read := hwritten
        scored := by rw [hto]; exact hl3
        last := fun f hf => ?_
        heardTo := fun r hr x hx => ?_ }, u,
      { hu with scored := by rw [hto]; omega, last := fun f hf => ?_ },
      ⟨hframes.sorted.imp And.left, fun f hf => ?_, fun f hf => ?_, fun f hf g hg => ?_⟩⟩
    · rw [hlast] at hf
      obtain rfl := Option.mem_some_iff.mp hf
      rw [hto]
      exact ⟨hl2, le_rfl⟩
    · have hx := hs.heardTo r hr x hx
      rw [hto]
      omega
    · rw [hlast] at hf
      obtain rfl := Option.mem_some_iff.mp hf
      omega
    · have hf := (hbounds f hf).1
      omega
    · rw [hto]
      exact ⟨(hbounds f hf).2.1, (hframes.le_getLast hl f hf).2⟩
    · rw [hlast] at hg
      obtain rfl := Option.mem_some_iff.mp hg
      exact (hframes.le_getLast hl f hf).1

section Poll

/-- A poll that leaves the utterance as it is. -/
def Waits (vad vad' : SourceVadState) : Prop :=
  ∃ since, vad' = { vad with silenceSince := since }

/-- A poll that opens an utterance. -/
def Opens (vad vad' : SourceVadState) : Prop :=
  vad.isSpeaking = false ∧ ∃ since time, vad' = { vad with
    isSpeaking := true
    silenceSince := since
    speechStartTime := time
    speechStartPos := vad.preRollStart parakeet }

theorem loud_cons (f : Frame) (frames : List Frame) :
    loud (f :: frames) =
      if parakeet.speechThreshold ≤ f.prob then f :: loud frames else loud frames := by
  unfold loud
  rw [List.filter_cons]
  simp only [decide_eq_true_eq]

theorem pollVad_cases (vad : SourceVadState) (f : Frame) (now : Nat) :
    let polled := pollVad vad (some f.prob) parakeet now
    (Waits vad polled.1 ∧ (vad.isSpeaking = true ∨ loud [f] = []) ∧
        (polled.2 ≠ .none → vad.isSpeaking = true)) ∨
      Opens vad polled.1 ∧ loud [f] ≠ [] ∧ polled.2 = .none := by
  intro polled
  simp only [polled, pollVad, loud_cons]
  by_cases hspeaking : vad.isSpeaking = true
  · refine .inl ⟨?_, .inl hspeaking, fun _ => hspeaking⟩
    rw [if_pos hspeaking]
    split <;> exact ⟨_, rfl⟩
  · rw [if_neg hspeaking]
    have hspeaking : vad.isSpeaking = false := Bool.not_eq_true _ ▸ hspeaking
    by_cases hloud : parakeet.speechThreshold ≤ f.prob
    · refine .inr ⟨⟨hspeaking, none, some now, ?_⟩, ?_, ?_⟩
      · have hpre : 0 < parakeet.preRoll := by decide
        simp [hloud, hpre]
      · simp [hloud]
      · simp [hloud]
    · refine .inl ⟨⟨vad.silenceSince, ?_⟩, .inr ?_, ?_⟩
      · simp [hloud]
      · simp [hloud, loud]
      · simp [hloud]

theorem Opens.waits {vad vad' vad'' : SourceVadState} (h : Opens vad vad') (h' : Waits vad' vad'') :
    Opens vad vad'' := by
  obtain ⟨hspeaking, since, time, rfl⟩ := h
  obtain ⟨since', rfl⟩ := h'
  exact ⟨hspeaking, since', time, rfl⟩

theorem Waits.opens {vad vad' vad'' : SourceVadState} (h : Waits vad vad') (h' : Opens vad' vad'') :
    Opens vad vad'' := by
  obtain ⟨since, rfl⟩ := h
  obtain ⟨hspeaking, since', time, rfl⟩ := h'
  exact ⟨hspeaking, since', time, rfl⟩

theorem Waits.waits {vad vad' vad'' : SourceVadState} (h : Waits vad vad') (h' : Waits vad' vad'') :
    Waits vad vad'' := by
  obtain ⟨since, rfl⟩ := h
  obtain ⟨since', rfl⟩ := h'
  exact ⟨since', rfl⟩

theorem Waits.isSpeaking {vad vad' : SourceVadState} (h : Waits vad vad') :
    vad'.isSpeaking = vad.isSpeaking := by
  obtain ⟨since, rfl⟩ := h
  rfl

theorem Opens.isSpeaking {vad vad' : SourceVadState} (h : Opens vad vad') :
    vad'.isSpeaking = true := by
  obtain ⟨_, since, time, rfl⟩ := h
  rfl

theorem strongest_eq_none {a b : VadAction} (h : a.strongest b = .none) : a = .none ∧ b = .none := by
  cases a <;> cases b <;> simp_all [VadAction.strongest]

/-- A whole batch opens at most one utterance, and only for a loud frame. -/
theorem pollFrames_cases (vad : SourceVadState) (best : VadAction) (frames : List Frame)
    (clock : List Nat) (hbest : best ≠ .none → vad.isSpeaking = true) :
    let polled := pollFrames parakeet vad best frames clock
    (Waits vad polled.1 ∧ (vad.isSpeaking = true ∨ loud frames = []) ∨
        Opens vad polled.1 ∧ loud frames ≠ []) ∧
      (polled.2 ≠ .none → polled.1.isSpeaking = true) := by
  induction frames generalizing vad best clock with
  | nil => exact ⟨.inl ⟨⟨vad.silenceSince, rfl⟩, .inr rfl⟩, hbest⟩
  | cons f frames ih =>
    intro polled
    have hhead := pollVad_cases vad f (clock.headD 0)
    have htail := ih (pollVad vad (some f.prob) parakeet (clock.headD 0)).1
      (best.strongest (pollVad vad (some f.prob) parakeet (clock.headD 0)).2) clock.tail ?_
    · obtain ⟨htail, haction⟩ := htail
      refine ⟨?_, haction⟩
      have hcons : loud (f :: frames) = loud [f] ++ loud frames := by
        rw [loud_cons, loud_cons]
        split <;> rfl
      rw [hcons]
      rcases hhead with ⟨hwait, hquiet, _⟩ | ⟨hopen, hloud, _⟩
      · rcases htail with ⟨hwait', hquiet'⟩ | ⟨hopen', hloud'⟩
        · refine .inl ⟨hwait.waits hwait', ?_⟩
          rw [hwait.isSpeaking] at hquiet'
          rcases hquiet with h | h
          · exact .inl h
          · exact hquiet'.imp_right (fun h' => by rw [h, h']; rfl)
        · exact .inr ⟨hwait.opens hopen', by simp [hloud']⟩
      · rcases htail with ⟨hwait', _⟩ | ⟨hopen', _⟩
        · exact .inr ⟨hopen.waits hwait', by simp [hloud]⟩
        · exact absurd hopen.isSpeaking (by rw [hopen'.1]; exact Bool.false_ne_true)
    · intro hne
      rcases hhead with ⟨hwait, _, haction⟩ | ⟨hopen, _, _⟩
      · rw [hwait.isSpeaking]
        by_contra hspeaking
        exact hne (by
          rw [not_imp_comm.mp hbest hspeaking, not_imp_comm.mp haction hspeaking]
          rfl)
      · exact hopen.isSpeaking

/-- A tick of one source, with the batch that it polls. -/
theorem pollSource_cases (vad : SourceVadState) (frames : List Frame) (clock : List Nat)
    (hdrain : vad.forceDrain = true → vad.isSpeaking = true) :
    let polled := pollSource parakeet vad frames clock
    (Waits vad polled.1 ∧ (vad.isSpeaking = true ∨ loud (polledFrames vad frames) = []) ∨
        Opens vad polled.1 ∧ loud (polledFrames vad frames) ≠ []) ∧
      (polled.2 ≠ .none → polled.1.isSpeaking = true) := by
  intro polled
  simp only [polled, pollSource, polledFrames]
  by_cases hforce : vad.forceDrain = true
  · simp only [hforce, if_true]
    exact ⟨.inl ⟨⟨vad.silenceSince, rfl⟩, .inr rfl⟩, fun _ => hdrain hforce⟩
  · simp only [hforce, Bool.false_eq_true, if_false]
    by_cases hframes : frames = []
    · simp only [hframes, if_true, SileroSource.lastProbability]
      cases hlast : vad.silero.lastFrame with
      | none => exact ⟨.inl ⟨⟨vad.silenceSince, rfl⟩, .inr rfl⟩, fun h => absurd rfl h⟩
      | some f =>
        simp only [Option.map_some, Option.toList_some]
        rcases pollVad_cases vad f (clock.headD 0) with ⟨hwait, hquiet, haction⟩ | ⟨hopen, hloud, _⟩
        · exact ⟨.inl ⟨hwait, hquiet⟩, fun h => hwait.isSpeaking.trans (haction h)⟩
        · exact ⟨.inr ⟨hopen, hloud⟩, fun _ => hopen.isSpeaking⟩
    · simp only [hframes, if_false]
      exact pollFrames_cases vad .none frames clock (fun h => absurd rfl h)

end Poll

end YapStack.Live.Loop
