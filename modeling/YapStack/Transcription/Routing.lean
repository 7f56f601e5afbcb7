import Mathlib.Data.Nat.ModEq
import YapStack.Transcription.Client

namespace YapStack.Transcription

open Runs

variable {T B : Type} [DecidableEq T] {s s' : State T B} {t u : T} {c d : Call B}
  {p q id : ℕ} {r : SidecarResponse B} {lost : List T}

@[simp] theorem setPipeline_self (s : State T B) (p : ℕ) (pipeline : Pipeline T B) :
    (s.setPipeline p pipeline).pipelines p = pipeline := Function.update_self ..

theorem setPipeline_of_ne (s : State T B) (pipeline : Pipeline T B) (h : q ≠ p) :
    (s.setPipeline p pipeline).pipelines q = s.pipelines q := Function.update_of_ne h ..

@[simp] theorem setPipeline_calls (s : State T B) (p : ℕ) (pipeline : Pipeline T B) :
    (s.setPipeline p pipeline).calls = s.calls := rfl

@[simp] theorem setPipeline_current (s : State T B) (p : ℕ) (pipeline : Pipeline T B) :
    (s.setPipeline p pipeline).current = s.current := rfl

@[simp] theorem setPipeline_nextId (s : State T B) (p : ℕ) (pipeline : Pipeline T B) :
    (s.setPipeline p pipeline).nextId = s.nextId := rfl

@[simp] theorem setPipeline_drawn (s : State T B) (p : ℕ) (pipeline : Pipeline T B) :
    (s.setPipeline p pipeline).drawn = s.drawn := rfl

@[simp] theorem setPipeline_delivered (s : State T B) (p : ℕ) (pipeline : Pipeline T B) :
    (s.setPipeline p pipeline).delivered = s.delivered := rfl

@[simp] theorem disconnect_pipelines (s : State T B) (lost : List T) :
    (s.disconnect lost).pipelines = s.pipelines := rfl

@[simp] theorem disconnect_current (s : State T B) (lost : List T) :
    (s.disconnect lost).current = s.current := rfl

@[simp] theorem disconnect_nextId (s : State T B) (lost : List T) :
    (s.disconnect lost).nextId = s.nextId := rfl

@[simp] theorem disconnect_drawn (s : State T B) (lost : List T) :
    (s.disconnect lost).drawn = s.drawn := rfl

@[simp] theorem disconnect_delivered (s : State T B) (lost : List T) :
    (s.disconnect lost).delivered = s.delivered := rfl

@[simp] theorem setStage_pipelines (s : State T B) (t : T) (stage : Stage B) :
    (s.setStage t stage).pipelines = s.pipelines := rfl

@[simp] theorem setStage_current (s : State T B) (t : T) (stage : Stage B) :
    (s.setStage t stage).current = s.current := rfl

@[simp] theorem setStage_nextId (s : State T B) (t : T) (stage : Stage B) :
    (s.setStage t stage).nextId = s.nextId := rfl

@[simp] theorem setStage_drawn (s : State T B) (t : T) (stage : Stage B) :
    (s.setStage t stage).drawn = s.drawn := rfl

@[simp] theorem setStage_delivered (s : State T B) (t : T) (stage : Stage B) :
    (s.setStage t stage).delivered = s.delivered := rfl

theorem setCall_self (s : State T B) (t : T) (c : Call B) :
    (s.setCall t c).calls t = some c := Function.update_self ..

theorem setCall_of_ne (s : State T B) (c : Call B) (h : u ≠ t) :
    (s.setCall t c).calls u = s.calls u := Function.update_of_ne h ..

theorem setStage_self (h : s.calls t = some c) (stage : Stage B) :
    (s.setStage t stage).calls t = some { c with stage } := by
  simp [State.setStage, h]

theorem setStage_of_ne (s : State T B) (stage : Stage B) (h : u ≠ t) :
    (s.setStage t stage).calls u = s.calls u := Function.update_of_ne h ..

/-- What one step does. -/
inductive Next (s : State T B) : Event T B → State T B → Prop where
  | allocate (t : T) (hidle : s.respawning = false) (hcall : s.calls t = none) :
    Next s (.allocate t) { s.setCall t ⟨s.current, s.nextId, .drawn, .connected⟩ with
      nextId := (s.nextId + 1) % wordSize
      drawn := s.drawn ++ [t] }
  | insert (t : T) (c : Call B) (hcall : s.calls t = some c) (hstage : c.stage = .drawn) :
    Next s (.insert t) ((s.register c.pipe c.id t).setStage t .writing)
  | written (t : T) (c : Call B) (hcall : s.calls t = some c) (hstage : c.stage = .writing) :
    Next s (.write t true) (s.setStage t .waiting)
  | unwritten (t : T) (c : Call B) (hcall : s.calls t = some c) (hstage : c.stage = .writing) :
    Next s (.write t false) (s.setStage t (.failing .io))
  | cancelPending (t : T) (c : Call B) (e : TranscriptionError) (hcall : s.calls t = some c)
    (hstage : c.stage = .failing e) :
    Next s (.cancelPending t)
      ((s.cancelPending c.pipe c.id).setStage t (.returned (.error e)))
  | received (t : T) (c : Call B) (r : SidecarResponse B) (hcall : s.calls t = some c)
    (hstage : c.stage = .waiting) (hchannel : c.channel = .sent r) :
    Next s (.receive t) (s.setStage t (.returned (.ok r)))
  | closed (t : T) (c : Call B) (hcall : s.calls t = some c) (hstage : c.stage = .waiting)
    (hchannel : c.channel = .disconnected) :
    Next s (.receive t) (s.setStage t (.failing .sidecarError))
  | timeout (t : T) (c : Call B) (hcall : s.calls t = some c) (hstage : c.stage = .waiting)
    (hchannel : c.channel = .connected) :
    Next s (.timeout t) (s.setStage t (.failing .timeout))
  | abandon (t : T) (c : Call B) (hcall : s.calls t = some c)
    (hstage : c.stage = .writing ∨ c.stage = .waiting) :
    Next s (.abandon t) (s.setStage t .dropped)
  | readLine (p : ℕ) (line : Line B) (hspawned : p ≤ s.current)
    (hreader : (s.pipelines p).reader = .reading) :
    Next s (.readLine p line) (s.readLine p line)
  | send (p : ℕ) (t : T) (r : SidecarResponse B) (hreader : (s.pipelines p).reader = .sending t r) :
    Next s (.send p) (s.send p t r)
  | exit (p : ℕ) (hspawned : p ≤ s.current) (hreader : (s.pipelines p).reader = .reading) :
    Next s (.exit p) ((s.clear p).setPipeline p
      { (s.clear p).pipelines p with reader := .cleared })
  | gone (p : ℕ) (hreader : (s.pipelines p).reader = .cleared) :
    Next s (.gone p) (s.setPipeline p
      { s.pipelines p with reader := .ended, readerAlive := false })
  | respawn (hidle : s.respawning = false) (halone : s.drawn.any s.active = false) :
    Next s .respawn { s.clear s.current with respawning := true }
  | spawned (hrespawning : s.respawning = true) :
    Next s (.spawned true) { s.setPipeline (s.current + 1) .spawned with
      current := s.current + 1, respawning := false }
  | spawnFailed (hrespawning : s.respawning = true) :
    Next s (.spawned false) { s with respawning := false }

theorem step_next {e : Event T B} (h : step s e = some s') : Next s e s' := by
  cases e with
  | allocate t =>
    simp only [step] at h
    split at h
    · contradiction
    · next hidle =>
      split at h
      · next hcall =>
        obtain rfl := Option.some.inj h
        exact .allocate t (by simpa using hidle) hcall
      · contradiction
  | insert t =>
    simp only [step] at h
    split at h
    · next hcall =>
      obtain rfl := Option.some.inj h
      exact .insert t _ hcall rfl
    · contradiction
  | write t ok =>
    simp only [step] at h
    split at h
    · next hcall =>
      obtain rfl := Option.some.inj h
      cases ok with
      | true => exact .written t _ hcall rfl
      | false => exact .unwritten t _ hcall rfl
    · contradiction
  | cancelPending t =>
    simp only [step] at h
    split at h
    · next hcall =>
      obtain rfl := Option.some.inj h
      exact .cancelPending t _ _ hcall rfl
    · contradiction
  | receive t =>
    simp only [step] at h
    split at h
    · next hcall =>
      obtain rfl := Option.some.inj h
      exact .received t _ _ hcall rfl rfl
    · next hcall =>
      obtain rfl := Option.some.inj h
      exact .closed t _ hcall rfl rfl
    · contradiction
  | timeout t =>
    simp only [step] at h
    split at h
    · next hcall =>
      obtain rfl := Option.some.inj h
      exact .timeout t _ hcall rfl rfl
    · contradiction
  | abandon t =>
    simp only [step] at h
    split at h
    · next hcall =>
      obtain rfl := Option.some.inj h
      exact .abandon t _ hcall (.inl rfl)
    · next hcall =>
      obtain rfl := Option.some.inj h
      exact .abandon t _ hcall (.inr rfl)
    · contradiction
  | readLine p line =>
    simp only [step] at h
    split at h
    · next hreader =>
      obtain ⟨hspawned, hs⟩ := Option.ite_none_right_eq_some.mp h
      obtain rfl := Option.some.inj hs
      exact .readLine p line hspawned hreader
    · contradiction
  | send p =>
    simp only [step] at h
    split at h
    · next hreader =>
      obtain rfl := Option.some.inj h
      exact .send p _ _ hreader
    · contradiction
  | exit p =>
    simp only [step] at h
    split at h
    · next hreader =>
      obtain ⟨hspawned, hs⟩ := Option.ite_none_right_eq_some.mp h
      obtain rfl := Option.some.inj hs
      exact .exit p hspawned hreader
    · contradiction
  | gone p =>
    simp only [step] at h
    split at h
    · next hreader =>
      obtain rfl := Option.some.inj h
      exact .gone p hreader
    · contradiction
  | respawn =>
    simp only [step] at h
    split at h
    · contradiction
    · next hidle =>
      obtain rfl := Option.some.inj h
      obtain ⟨hidle, halone⟩ := not_or.mp hidle
      exact .respawn (by simpa using hidle) (by simpa using halone)
  | spawned ok =>
    obtain ⟨hrespawning, hs⟩ := Option.ite_none_right_eq_some.mp h
    cases ok with
    | true =>
      obtain rfl := Option.some.inj hs
      exact .spawned hrespawning
    | false =>
      obtain rfl := Option.some.inj hs
      exact .spawnFailed hrespawning

/-- A call before and after a part of a map is dropped, `lost` when its sender was in it. -/
structure Cut (lost : Prop) (c d : Call B) : Prop where
  pipe : d.pipe = c.pipe
  id : d.id = c.id
  stage : d.stage = c.stage
  kept : ¬lost → d = c
  used : c.channel ≠ .connected → d = c
  connected : d.channel = .connected → c.channel = .connected ∧ ¬lost
  sent : ∀ r, d.channel = .sent r → d = c

theorem cut_disconnect (c : Call B) : Cut True c c.disconnect := by
  obtain ⟨pipe, id, stage, channel⟩ := c
  cases channel <;> constructor <;> simp [Call.disconnect]

theorem cut_self (c : Call B) : Cut False c c :=
  ⟨rfl, rfl, rfl, fun _ => rfl, fun _ => rfl, fun h => ⟨h, id⟩, fun _ _ => rfl⟩

theorem calls_disconnect (hcall : s.calls t = some c) (lost : List T) :
    ∃ d, (s.disconnect lost).calls t = some d ∧ Cut (t ∈ lost) c d := by
  by_cases hlost : t ∈ lost
  · refine ⟨c.disconnect, ?_, ?_⟩
    · rw [State.disconnect]
      simp only [if_pos hlost, hcall, Option.map_some]
    · simpa only [hlost] using cut_disconnect c
  · refine ⟨c, ?_, ?_⟩
    · rw [State.disconnect]
      simp only [if_neg hlost, hcall]
    · simpa only [hlost] using cut_self c

theorem calls_of_disconnect (hcall : (s.disconnect lost).calls t = some d) :
    ∃ c, s.calls t = some c ∧ Cut (t ∈ lost) c d := by
  cases hold : s.calls t with
  | none => simp [State.disconnect, hold] at hcall
  | some c =>
    obtain ⟨d', hd, hcut⟩ := calls_disconnect hold lost
    obtain rfl := Option.some.inj (hd.symm.trans hcall)
    exact ⟨c, rfl, hcut⟩

theorem disconnect_single (hcall : s.calls t = some c) (hconnected : c.channel = .connected) :
    s.disconnect [t] = s.setCall t { c with channel := .disconnected } := by
  rw [State.disconnect, State.setCall]
  congr 1
  funext u
  by_cases hu : u = t
  · rw [hu, Function.update_self, if_pos (List.mem_singleton_self t), hcall, Option.map_some,
      Call.disconnect, hconnected]
  · rw [Function.update_of_ne hu, if_neg (by simpa using hu)]

/-- The sender of a request is in the map. -/
def Registered (s : State T B) (t : T) (c : Call B) : Prop :=
  (s.pipelines c.pipe).pending.lookup c.id = some t

/-- Every sender is in one place, and every response went to the request of its id. -/
structure Inv (s : State T B) : Prop where
  owner : ∀ p id t, (s.pipelines p).pending.lookup id = some t →
    ∃ c, s.calls t = some c ∧ c.pipe = p ∧ c.id = id ∧ c.channel = .connected ∧
      c.stage ≠ .drawn ∧ ∀ o, c.stage ≠ .returned o
  sending : ∀ p t r, (s.pipelines p).reader = .sending t r →
    ∃ c, s.calls t = some c ∧ c.pipe = p ∧ responseId r = some c.id ∧
      c.channel = .connected ∧ c.stage ≠ .drawn ∧ ¬Registered s t c
  sender : ∀ t c, s.calls t = some c → c.channel = .connected → c.stage ≠ .drawn →
    Registered s t c ∨ ∃ r, (s.pipelines c.pipe).reader = .sending t r
  drawn : ∀ t c, s.calls t = some c → c.stage = .drawn → c.channel = .connected
  pipe_le : ∀ t c, s.calls t = some c → c.pipe ≤ s.current
  delivered : ∀ p t r, (p, t, r) ∈ s.delivered →
    ∃ c, s.calls t = some c ∧ c.pipe = p ∧ responseId r = some c.id ∧ c.channel = .sent r
  once : (s.delivered.map (·.2.1)).Nodup
  sent : ∀ t c r, s.calls t = some c → c.channel = .sent r → (c.pipe, t, r) ∈ s.delivered
  outcome : ∀ t c r, s.calls t = some c → c.stage = .returned (.ok r) → c.channel = .sent r
  nextId : s.nextId = (s.drawn.length + 1) % wordSize
  ids : ∀ t c, s.calls t = some c → ∃ k, s.drawn[k]? = some t ∧ c.id = (k + 1) % wordSize

theorem inv_spawn : Inv (.spawn : State T B) where
  owner := by intro p id t h; simp [State.spawn, Pipeline.spawned] at h
  sending := by intro p t r h; simp [State.spawn, Pipeline.spawned] at h
  sender := by intro t c h; simp [State.spawn] at h
  drawn := by intro t c h; simp [State.spawn] at h
  pipe_le := by intro t c h; simp [State.spawn] at h
  delivered := by intro p t r h; simp [State.spawn] at h
  once := List.nodup_nil
  sent := by intro t c r h; simp [State.spawn] at h
  outcome := by intro t c r h; simp [State.spawn] at h
  nextId := rfl
  ids := by intro t c h; simp [State.spawn] at h

/-- A registered request is not in two places of the map. -/
theorem Inv.owner_unique (h : Inv s) (hcall : s.calls t = some c)
    (hmap : (s.pipelines p).pending.lookup id = some t) : p = c.pipe ∧ id = c.id := by
  obtain ⟨d, hd, rfl, rfl, _⟩ := h.owner p id t hmap
  obtain rfl := Option.some.inj (hd.symm.trans hcall)
  exact ⟨rfl, rfl⟩

/-- Senders that leave the map are dropped. -/
theorem Inv.remove (h : Inv s) {pending : PendingMap T}
    (hlost : ∀ t, t ∈ lost ↔ ∃ id, (s.pipelines p).pending.lookup id = some t ∧
      pending.lookup id = none)
    (hrest : ∀ id t, pending.lookup id = some t → (s.pipelines p).pending.lookup id = some t) :
    Inv ((s.disconnect lost).setPipeline p { s.pipelines p with pending }) := by
  have hkept : ∀ q id t, (((s.disconnect lost).setPipeline p
      { s.pipelines p with pending }).pipelines q).pending.lookup id = some t →
      (s.pipelines q).pending.lookup id = some t ∧ t ∉ lost := by
    intro q id t hmap
    by_cases hq : q = p
    · subst hq
      rw [setPipeline_self] at hmap
      refine ⟨hrest id t hmap, fun hin => ?_⟩
      obtain ⟨id', hmap', hnone⟩ := (hlost t).mp hin
      obtain ⟨c, hcall, rfl, rfl, _⟩ := h.owner q id t (hrest id t hmap)
      obtain ⟨_, rfl⟩ := h.owner_unique hcall hmap'
      exact absurd (hmap.symm.trans hnone) (by simp)
    · rw [setPipeline_of_ne _ _ hq] at hmap
      refine ⟨hmap, fun hin => hq ?_⟩
      obtain ⟨id', hmap', _⟩ := (hlost t).mp hin
      obtain ⟨c, hcall, rfl, rfl, _⟩ := h.owner q id t hmap
      exact (h.owner_unique hcall hmap').1.symm
  have hreader : ∀ q, (((s.disconnect lost).setPipeline p
      { s.pipelines p with pending }).pipelines q).reader = (s.pipelines q).reader := by
    intro q
    by_cases hq : q = p
    · subst hq
      rw [setPipeline_self]
    · rw [setPipeline_of_ne _ _ hq, disconnect_pipelines]
  constructor
  · intro q id t hmap
    obtain ⟨hmap, hin⟩ := hkept q id t hmap
    obtain ⟨c, hcall, hc⟩ := h.owner q id t hmap
    obtain ⟨d, hd, hcut⟩ := calls_disconnect hcall lost
    obtain rfl := hcut.kept hin
    exact ⟨d, hd, hc⟩
  · intro q t r hsend
    rw [hreader] at hsend
    obtain ⟨c, hcall, rfl, hid, hchannel, hstage, hfree⟩ := h.sending q t r hsend
    have hin : t ∉ lost := by
      intro hin
      obtain ⟨id, hmap, _⟩ := (hlost t).mp hin
      obtain ⟨rfl, rfl⟩ := h.owner_unique hcall hmap
      exact hfree hmap
    obtain ⟨d, hd, hcut⟩ := calls_disconnect hcall lost
    obtain rfl := hcut.kept hin
    exact ⟨d, hd, rfl, hid, hchannel, hstage, fun hmap => hfree (hkept _ _ _ hmap).1⟩
  · intro t d hd hchannel hstage
    obtain ⟨c, hcall, hcut⟩ := calls_of_disconnect hd
    obtain ⟨_, hin⟩ := hcut.connected hchannel
    obtain rfl := hcut.kept hin
    obtain hmap | ⟨r, hsend⟩ := h.sender t d hcall hchannel hstage
    · refine .inl ?_
      rw [Registered]
      by_cases hp : d.pipe = p
      · subst hp
        rw [setPipeline_self]
        cases hget : pending.lookup d.id with
        | none => exact absurd ((hlost t).mpr ⟨d.id, hmap, hget⟩) hin
        | some u => exact (hrest _ _ hget).symm.trans hmap
      · rw [setPipeline_of_ne _ _ hp]
        exact hmap
    · exact .inr ⟨r, (hreader _).trans hsend⟩
  · intro t d hd hstage
    obtain ⟨c, hcall, hcut⟩ := calls_of_disconnect hd
    have hin : t ∉ lost := by
      intro hin
      obtain ⟨id, hmap, _⟩ := (hlost t).mp hin
      obtain ⟨c', hcall', _, _, _, hdrawn, _⟩ := h.owner p id t hmap
      obtain rfl := Option.some.inj (hcall.symm.trans hcall')
      exact hdrawn (hcut.stage ▸ hstage)
    obtain rfl := hcut.kept hin
    exact h.drawn t d hcall hstage
  · intro t d hd
    obtain ⟨c, hcall, hcut⟩ := calls_of_disconnect hd
    exact hcut.pipe ▸ h.pipe_le t c hcall
  · intro q t r hin
    obtain ⟨c, hcall, hpipe, hid, hchannel⟩ := h.delivered q t r hin
    obtain ⟨d, hd, hcut⟩ := calls_disconnect hcall lost
    obtain rfl := hcut.used (by simp [hchannel])
    exact ⟨d, hd, hpipe, hid, hchannel⟩
  · exact h.once
  · intro t d r hd hchannel
    obtain ⟨c, hcall, hcut⟩ := calls_of_disconnect hd
    obtain rfl := hcut.sent r hchannel
    exact h.sent t d r hcall hchannel
  · intro t d r hd hstage
    obtain ⟨c, hcall, hcut⟩ := calls_of_disconnect hd
    have hc := h.outcome t c r hcall (hcut.stage ▸ hstage)
    obtain rfl := hcut.used (by simp [hc])
    exact hc
  · exact h.nextId
  · intro t d hd
    obtain ⟨c, hcall, hcut⟩ := calls_of_disconnect hd
    exact hcut.id ▸ h.ids t c hcall

theorem Inv.cancelPending (h : Inv s) (p id : ℕ) : Inv (s.cancelPending p id) := by
  refine h.remove (fun t => ?_) (fun id' t hmap => ?_)
  · rw [Option.mem_toList]
    constructor
    · exact fun hmap => ⟨id, hmap, AList.lookup_erase ..⟩
    · rintro ⟨id', hmap, hnone⟩
      obtain rfl | hne := eq_or_ne id' id
      · exact hmap
      · rw [AList.lookup_erase_ne hne, hmap] at hnone
        contradiction
  · obtain rfl | hne := eq_or_ne id' id
    · rw [AList.lookup_erase] at hmap
      contradiction
    · rwa [AList.lookup_erase_ne hne] at hmap

theorem Inv.clear (h : Inv s) (p : ℕ) : Inv (s.clear p) := by
  refine h.remove (fun t => ?_) (fun id t hmap => by simp at hmap)
  simp only [List.mem_map, AList.lookup_empty, and_true]
  constructor
  · rintro ⟨⟨id, u⟩, hin, rfl⟩
    exact ⟨id, AList.mem_lookup_iff.mpr hin⟩
  · rintro ⟨id, hmap⟩
    exact ⟨⟨id, t⟩, AList.mem_lookup_iff.mp hmap, rfl⟩

/-- A reader that sends nothing before or after, over the same map. -/
theorem Inv.setReader (h : Inv s) {pipeline : Pipeline T B}
    (hpending : pipeline.pending = (s.pipelines p).pending)
    (hbefore : ∀ t r, (s.pipelines p).reader ≠ .sending t r)
    (hafter : ∀ t r, pipeline.reader ≠ .sending t r) : Inv (s.setPipeline p pipeline) := by
  have hmap : ∀ q, ((s.setPipeline p pipeline).pipelines q).pending = (s.pipelines q).pending := by
    intro q
    by_cases hq : q = p
    · rw [hq, setPipeline_self, hpending]
    · rw [setPipeline_of_ne _ _ hq]
  have hreader : ∀ q t r, ((s.setPipeline p pipeline).pipelines q).reader = .sending t r ↔
      (s.pipelines q).reader = .sending t r := by
    intro q t r
    by_cases hq : q = p
    · rw [hq, setPipeline_self]
      exact iff_of_false (hafter t r) (hbefore t r)
    · rw [setPipeline_of_ne _ _ hq]
  have hregistered : ∀ t c, Registered (s.setPipeline p pipeline) t c ↔ Registered s t c :=
    fun t c => by rw [Registered, Registered, hmap]
  refine { h with owner := ?_, sending := ?_, sender := ?_ }
  · intro q id t hlookup
    rw [hmap] at hlookup
    exact h.owner q id t hlookup
  · intro q t r hsend
    obtain ⟨c, hcall, hpipe, hid, hchannel, hstage, hfree⟩ := h.sending q t r ((hreader ..).mp hsend)
    exact ⟨c, hcall, hpipe, hid, hchannel, hstage, (hregistered t c).not.mpr hfree⟩
  · intro t c hcall hchannel hstage
    obtain hin | ⟨r, hsend⟩ := h.sender t c hcall hchannel hstage
    · exact .inl ((hregistered t c).mpr hin)
    · exact .inr ⟨r, (hreader ..).mpr hsend⟩

theorem setStage_forth (hcall : s.calls t = some c) (stage : Stage B) (hd : s.calls u = some d) :
    (u = t ∧ d = c) ∨ (u ≠ t ∧ (s.setStage t stage).calls u = some d) := by
  by_cases hu : u = t
  · subst hu
    exact .inl ⟨rfl, Option.some.inj (hd.symm.trans hcall)⟩
  · exact .inr ⟨hu, by rw [setStage_of_ne _ _ hu, hd]⟩

theorem setStage_back (hcall : s.calls t = some c) (stage : Stage B)
    (hd : (s.setStage t stage).calls u = some d) :
    (u = t ∧ d = { c with stage }) ∨ (u ≠ t ∧ s.calls u = some d) := by
  by_cases hu : u = t
  · subst hu
    rw [setStage_self hcall] at hd
    exact .inl ⟨rfl, (Option.some.inj hd).symm⟩
  · rw [setStage_of_ne _ _ hu] at hd
    exact .inr ⟨hu, hd⟩

/-- A call goes on after it has registered. -/
theorem Inv.setStage (h : Inv s) (hcall : s.calls t = some c) (hold : c.stage ≠ .drawn)
    {stage : Stage B} (hnew : stage ≠ .drawn)
    (hreturned : ∀ o, stage = .returned o → ¬Registered s t c)
    (hok : ∀ r, stage = .returned (.ok r) → c.channel = .sent r) : Inv (s.setStage t stage) := by
  have hfwd := fun u d => setStage_forth (u := u) (d := d) hcall stage
  have hback := fun u d => setStage_back (u := u) (d := d) hcall stage
  have hself := setStage_self hcall stage
  constructor
  · intro q id u hmap
    obtain ⟨d, hd, hpipe, hid, hchannel, hstage, hret⟩ := h.owner q id u hmap
    obtain ⟨rfl, rfl⟩ | ⟨_, hd⟩ := hfwd u d hd
    · refine ⟨_, hself, hpipe, hid, hchannel, hnew, fun o ho => hreturned o ho ?_⟩
      rw [Registered, hpipe, hid]
      exact hmap
    · exact ⟨d, hd, hpipe, hid, hchannel, hstage, hret⟩
  · intro q u r hsend
    obtain ⟨d, hd, hpipe, hid, hchannel, hstage, hfree⟩ := h.sending q u r hsend
    obtain ⟨rfl, rfl⟩ | ⟨_, hd⟩ := hfwd u d hd
    · exact ⟨_, hself, hpipe, hid, hchannel, hnew, hfree⟩
    · exact ⟨d, hd, hpipe, hid, hchannel, hstage, hfree⟩
  · intro u d hd hchannel hstage
    obtain ⟨rfl, rfl⟩ | ⟨_, hd⟩ := hback u d hd
    · exact h.sender u c hcall hchannel hold
    · exact h.sender u d hd hchannel hstage
  · intro u d hd hstage
    obtain ⟨rfl, rfl⟩ | ⟨_, hd⟩ := hback u d hd
    · exact absurd hstage hnew
    · exact h.drawn u d hd hstage
  · intro u d hd
    obtain ⟨rfl, rfl⟩ | ⟨_, hd⟩ := hback u d hd
    · exact h.pipe_le u c hcall
    · exact h.pipe_le u d hd
  · intro q u r hin
    obtain ⟨d, hd, hpipe, hid, hchannel⟩ := h.delivered q u r hin
    obtain ⟨rfl, rfl⟩ | ⟨_, hd⟩ := hfwd u d hd
    · exact ⟨_, hself, hpipe, hid, hchannel⟩
    · exact ⟨d, hd, hpipe, hid, hchannel⟩
  · exact h.once
  · intro u d r hd hchannel
    obtain ⟨rfl, rfl⟩ | ⟨_, hd⟩ := hback u d hd
    · exact h.sent u c r hcall hchannel
    · exact h.sent u d r hd hchannel
  · intro u d r hd hstage
    obtain ⟨rfl, rfl⟩ | ⟨_, hd⟩ := hback u d hd
    · exact hok r hstage
    · exact h.outcome u d r hd hstage
  · exact h.nextId
  · intro u d hd
    obtain ⟨rfl, rfl⟩ | ⟨_, hd⟩ := hback u d hd
    · exact h.ids u c hcall
    · exact h.ids u d hd

/-- A call registers under an id that the map does not have. -/
theorem Inv.enter (h : Inv s) (hcall : s.calls t = some c) (hold : c.stage = .drawn)
    (hnone : (s.pipelines c.pipe).pending.lookup c.id = none) :
    Inv ((s.setPipeline c.pipe { s.pipelines c.pipe with
      pending := (s.pipelines c.pipe).pending.insert c.id t }).setStage t .writing) := by
  set entered := s.setPipeline c.pipe { s.pipelines c.pipe with
    pending := (s.pipelines c.pipe).pending.insert c.id t } with hentered
  have hcall' : entered.calls t = some c := hcall
  have hconnected := h.drawn t c hcall hold
  have hreader : ∀ q, (entered.pipelines q).reader = (s.pipelines q).reader := by
    intro q
    by_cases hq : q = c.pipe
    · rw [hentered, hq, setPipeline_self]
    · rw [hentered, setPipeline_of_ne _ _ hq]
  have hmap : ∀ q id u, (entered.pipelines q).pending.lookup id = some u ↔
      (q = c.pipe ∧ id = c.id ∧ u = t) ∨ (s.pipelines q).pending.lookup id = some u := by
    intro q id u
    by_cases hq : q = c.pipe
    · subst hq
      rw [hentered, setPipeline_self]
      by_cases hid : id = c.id
      · subst hid
        rw [AList.lookup_insert, hnone]
        simp [eq_comm]
      · rw [AList.lookup_insert_ne hid]
        simp [hid]
    · rw [hentered, setPipeline_of_ne _ _ hq]
      simp [hq]
  have hunregistered : ∀ q id, (s.pipelines q).pending.lookup id ≠ some t := by
    intro q id hlookup
    obtain ⟨d, hd, _, _, _, hstage, _⟩ := h.owner q id t hlookup
    obtain rfl := Option.some.inj (hcall.symm.trans hd)
    exact hstage hold
  have hself := setStage_self hcall' .writing
  have hfwd := fun u d => setStage_forth (u := u) (d := d) hcall' .writing
  have hback := fun u d => setStage_back (u := u) (d := d) hcall' .writing
  constructor
  · intro q id u hlookup
    obtain ⟨rfl, rfl, rfl⟩ | hlookup := (hmap q id u).mp hlookup
    · exact ⟨_, hself, rfl, rfl, hconnected, by simp, by simp⟩
    · obtain ⟨d, hd, hpipe, hid, hchannel, hstage, hret⟩ := h.owner q id u hlookup
      obtain ⟨rfl, rfl⟩ | ⟨_, hd⟩ := hfwd u d hd
      · exact absurd hold hstage
      · exact ⟨d, hd, hpipe, hid, hchannel, hstage, hret⟩
  · intro q u r hsend
    obtain ⟨d, hd, hpipe, hid, hchannel, hstage, hfree⟩ :=
      h.sending q u r ((hreader q).symm.trans hsend)
    obtain ⟨rfl, rfl⟩ | ⟨hu, hd⟩ := hfwd u d hd
    · exact absurd hold hstage
    · refine ⟨d, hd, hpipe, hid, hchannel, hstage, fun hin => ?_⟩
      obtain ⟨_, _, hut⟩ | hin := (hmap _ _ _).mp hin
      · exact hu hut
      · exact hfree hin
  · intro u d hd hchannel hstage
    obtain ⟨rfl, rfl⟩ | ⟨_, hd⟩ := hback u d hd
    · exact .inl ((hmap _ _ _).mpr (.inl ⟨rfl, rfl, rfl⟩))
    · obtain hin | ⟨r, hsend⟩ := h.sender u d hd hchannel hstage
      · exact .inl ((hmap _ _ _).mpr (.inr hin))
      · exact .inr ⟨r, (hreader _).trans hsend⟩
  · intro u d hd hstage
    obtain ⟨rfl, rfl⟩ | ⟨_, hd⟩ := hback u d hd
    · exact hconnected
    · exact h.drawn u d hd hstage
  · intro u d hd
    obtain ⟨rfl, rfl⟩ | ⟨_, hd⟩ := hback u d hd
    · exact h.pipe_le u c hcall
    · exact h.pipe_le u d hd
  · intro q u r hin
    obtain ⟨d, hd, hpipe, hid, hchannel⟩ := h.delivered q u r hin
    obtain ⟨rfl, rfl⟩ | ⟨_, hd⟩ := hfwd u d hd
    · exact ⟨_, hself, hpipe, hid, hchannel⟩
    · exact ⟨d, hd, hpipe, hid, hchannel⟩
  · exact h.once
  · intro u d r hd hchannel
    obtain ⟨rfl, rfl⟩ | ⟨_, hd⟩ := hback u d hd
    · exact h.sent u c r hcall hchannel
    · exact h.sent u d r hd hchannel
  · intro u d r hd hstage
    obtain ⟨rfl, rfl⟩ | ⟨_, hd⟩ := hback u d hd
    · simp at hstage
    · exact h.outcome u d r hd hstage
  · exact h.nextId
  · intro u d hd
    obtain ⟨rfl, rfl⟩ | ⟨_, hd⟩ := hback u d hd
    · exact h.ids u c hcall
    · exact h.ids u d hd

theorem insert_erase_self (pending : PendingMap T) (id : ℕ) (t : T) :
    (pending.erase id).insert id t = pending.insert id t := by
  apply AList.ext
  have herase : (pending.erase id).entries = pending.entries.kerase id := rfl
  rw [AList.entries_insert, AList.entries_insert, herase,
    List.kerase_of_notMem_keys (List.notMem_keys_kerase _ pending.nodupKeys)]

theorem Inv.insert (h : Inv s) (hcall : s.calls t = some c) (hold : c.stage = .drawn) :
    Inv ((s.register c.pipe c.id t).setStage t .writing) := by
  have hfree : t ∉ ((s.pipelines c.pipe).pending.lookup c.id).toList := by
    intro hin
    obtain ⟨d, hd, _, _, _, hstage, _⟩ := h.owner _ _ t (Option.mem_toList.mp hin)
    obtain rfl := Option.some.inj (hcall.symm.trans hd)
    exact hstage hold
  obtain ⟨d, hd, hcut⟩ := calls_disconnect hcall _
  obtain rfl := hcut.kept hfree
  have hentered := (h.cancelPending d.pipe d.id).enter hd hold
    (by simp [State.cancelPending, AList.lookup_erase])
  simpa [State.cancelPending, State.register, State.setPipeline, insert_erase_self] using hentered

theorem Inv.allocate (h : Inv s) (hnone : s.calls t = none) :
    Inv { s.setCall t ⟨s.current, s.nextId, .drawn, .connected⟩ with
      nextId := (s.nextId + 1) % wordSize
      drawn := s.drawn ++ [t] } := by
  have hne : ∀ u d, s.calls u = some d → u ≠ t := by
    rintro u d hd rfl
    exact absurd (hnone.symm.trans hd) (by simp)
  have hfwd : ∀ u d, s.calls u = some d →
      (s.setCall t ⟨s.current, s.nextId, .drawn, .connected⟩).calls u = some d := by
    intro u d hd
    rw [setCall_of_ne _ _ (hne u d hd)]
    exact hd
  have hback : ∀ u d, (s.setCall t ⟨s.current, s.nextId, .drawn, .connected⟩).calls u = some d →
      (u = t ∧ d = ⟨s.current, s.nextId, .drawn, .connected⟩) ∨ s.calls u = some d := by
    intro u d hd
    by_cases hu : u = t
    · subst hu
      rw [setCall_self] at hd
      exact .inl ⟨rfl, (Option.some.inj hd).symm⟩
    · rw [setCall_of_ne _ _ hu] at hd
      exact .inr hd
  constructor
  · intro q id u hmap
    obtain ⟨d, hd, hrest⟩ := h.owner q id u hmap
    exact ⟨d, hfwd u d hd, hrest⟩
  · intro q u r hsend
    obtain ⟨d, hd, hrest⟩ := h.sending q u r hsend
    exact ⟨d, hfwd u d hd, hrest⟩
  · intro u d hd hchannel hstage
    obtain ⟨rfl, rfl⟩ | hd := hback u d hd
    · exact absurd rfl hstage
    · exact h.sender u d hd hchannel hstage
  · intro u d hd hstage
    obtain ⟨rfl, rfl⟩ | hd := hback u d hd
    · rfl
    · exact h.drawn u d hd hstage
  · intro u d hd
    obtain ⟨rfl, rfl⟩ | hd := hback u d hd
    · exact Nat.le_refl _
    · exact h.pipe_le u d hd
  · intro q u r hin
    obtain ⟨d, hd, hrest⟩ := h.delivered q u r hin
    exact ⟨d, hfwd u d hd, hrest⟩
  · exact h.once
  · intro u d r hd hchannel
    obtain ⟨rfl, rfl⟩ | hd := hback u d hd
    · simp at hchannel
    · exact h.sent u d r hd hchannel
  · intro u d r hd hstage
    obtain ⟨rfl, rfl⟩ | hd := hback u d hd
    · simp at hstage
    · exact h.outcome u d r hd hstage
  · simp only [h.nextId, List.length_append, List.length_singleton, Nat.mod_add_mod]
  · intro u d hd
    obtain ⟨rfl, rfl⟩ | hd := hback u d hd
    · exact ⟨s.drawn.length, by simp, h.nextId⟩
    · obtain ⟨k, hk, hid⟩ := h.ids u d hd
      have hlt := (List.getElem?_eq_some_iff.mp hk).1
      exact ⟨k, (List.getElem?_append_left hlt).trans hk, hid⟩

/-- The reader takes a sender out of the map. -/
theorem Inv.take (h : Inv s) {pipeline : Pipeline T B}
    (hreading : (s.pipelines p).reader = .reading)
    (hmap : (s.pipelines p).pending.lookup id = some t) (hid : responseId r = some id)
    (hpending : pipeline.pending = (s.pipelines p).pending.erase id)
    (hreader : pipeline.reader = .sending t r) : Inv (s.setPipeline p pipeline) := by
  obtain ⟨c, hcall, hpipe, hcid, hchannel, hstage, _⟩ := h.owner p id t hmap
  have hlookup : ∀ q id' u, ((s.setPipeline p pipeline).pipelines q).pending.lookup id' = some u ↔
      (s.pipelines q).pending.lookup id' = some u ∧ u ≠ t := by
    intro q id' u
    by_cases hq : q = p
    · subst hq
      rw [setPipeline_self, hpending]
      by_cases hid' : id' = id
      · subst hid'
        rw [AList.lookup_erase, hmap]
        simp [eq_comm]
      · rw [AList.lookup_erase_ne hid']
        refine ⟨fun hin => ⟨hin, ?_⟩, And.left⟩
        rintro rfl
        exact hid' ((h.owner_unique hcall hin).2.trans hcid)
    · rw [setPipeline_of_ne _ _ hq]
      refine ⟨fun hin => ⟨hin, ?_⟩, And.left⟩
      rintro rfl
      exact hq ((h.owner_unique hcall hin).1.trans hpipe)
  refine { h with owner := ?_, sending := ?_, sender := ?_ }
  · intro q id' u hin
    exact h.owner q id' u ((hlookup _ _ _).mp hin).1
  · intro q u r' hsend
    by_cases hq : q = p
    · subst hq
      rw [setPipeline_self, hreader] at hsend
      obtain ⟨rfl, rfl⟩ := Reader.sending.inj hsend
      refine ⟨c, hcall, hpipe, hcid ▸ hid, hchannel, hstage, fun hin => ?_⟩
      exact ((hlookup _ _ _).mp hin).2 rfl
    · rw [setPipeline_of_ne _ _ hq] at hsend
      obtain ⟨d, hd, hdpipe, hdid, hdchannel, hdstage, hfree⟩ := h.sending q u r' hsend
      exact ⟨d, hd, hdpipe, hdid, hdchannel, hdstage, fun hin => hfree ((hlookup _ _ _).mp hin).1⟩
  · intro u d hd hdchannel hdstage
    by_cases hu : u = t
    · subst hu
      obtain rfl := Option.some.inj (hcall.symm.trans hd)
      exact .inr ⟨r, by rw [hpipe, setPipeline_self, hreader]⟩
    · obtain hin | ⟨r', hsend⟩ := h.sender u d hd hdchannel hdstage
      · exact .inl ((hlookup _ _ _).mpr ⟨hin, hu⟩)
      · refine .inr ⟨r', ?_⟩
        have hp : d.pipe ≠ p := by
          rintro rfl
          exact absurd (hreading.symm.trans hsend) (by simp)
        rw [setPipeline_of_ne _ _ hp, hsend]

/-- The reader has used its sender up. -/
theorem Inv.release (h : Inv s) (hsend : (s.pipelines p).reader = .sending t r)
    (hcall : s.calls t = some c) {channel : Channel B} {log : List (ℕ × T × SidecarResponse B)}
    (hlog : (channel = .disconnected ∧ log = s.delivered) ∨
      (channel = .sent r ∧ (∀ o, c.stage ≠ .returned o) ∧ log = s.delivered ++ [(p, t, r)])) :
    Inv { (s.setPipeline p { s.pipelines p with reader := .reading }).setCall t
      { c with channel } with delivered := log } := by
  obtain ⟨c', hcall', rfl, hid, hconnected, hstage, hfree⟩ := h.sending p t r hsend
  obtain rfl := Option.some.inj (hcall.symm.trans hcall')
  set next := (s.setPipeline c.pipe { s.pipelines c.pipe with reader := .reading }).setCall t
    { c with channel } with hnext
  have hself : next.calls t = some { c with channel } := setCall_self ..
  have hother : ∀ u, u ≠ t → next.calls u = s.calls u := fun u hu => setCall_of_ne _ _ hu
  have hlost : channel ≠ .connected := by
    obtain ⟨rfl, _⟩ | ⟨rfl, _⟩ := hlog <;> simp
  have hpending : ∀ q, (next.pipelines q).pending = (s.pipelines q).pending := by
    intro q
    by_cases hq : q = c.pipe
    · rw [hq, hnext]
      simp [State.setCall]
    · rw [hnext, State.setCall]
      simp only [setPipeline_of_ne _ _ hq]
  have hreader : ∀ q u r', (next.pipelines q).reader = .sending u r' ↔
      (s.pipelines q).reader = .sending u r' ∧ q ≠ c.pipe := by
    intro q u r'
    by_cases hq : q = c.pipe
    · rw [hq, hnext]
      simp [State.setCall]
    · rw [hnext, State.setCall]
      simp only [setPipeline_of_ne _ _ hq]
      exact (and_iff_left hq).symm
  have hunregistered : ∀ q id, (s.pipelines q).pending.lookup id ≠ some t := by
    intro q id hin
    obtain ⟨rfl, rfl⟩ := h.owner_unique hcall hin
    exact hfree hin
  have hundelivered : t ∉ s.delivered.map (·.2.1) := by
    intro hin
    obtain ⟨⟨q, u, r'⟩, hd, rfl⟩ := List.mem_map.mp hin
    obtain ⟨d, hd, _, _, hsent⟩ := h.delivered q u r' hd
    obtain rfl := Option.some.inj (hcall.symm.trans hd)
    exact absurd (hconnected.symm.trans hsent) (by simp)
  constructor
  · intro q id u hin
    rw [hpending] at hin
    have hu : u ≠ t := by
      rintro rfl
      exact hunregistered q id hin
    obtain ⟨d, hd, hrest⟩ := h.owner q id u hin
    exact ⟨d, (hother u hu).trans hd, hrest⟩
  · intro q u r' hin
    obtain ⟨hin, hq⟩ := (hreader q u r').mp hin
    obtain ⟨d, hd, hpipe, hdid, hchannel, hdstage, hdfree⟩ := h.sending q u r' hin
    have hu : u ≠ t := by
      rintro rfl
      obtain rfl := Option.some.inj (hcall.symm.trans hd)
      exact hq hpipe.symm
    refine ⟨d, (hother u hu).trans hd, hpipe, hdid, hchannel, hdstage, fun hmap => hdfree ?_⟩
    rwa [Registered, hpending] at hmap
  · intro u d hd hchannel hdstage
    by_cases hu : u = t
    · subst hu
      obtain rfl := Option.some.inj (hself.symm.trans hd)
      exact absurd hchannel hlost
    · rw [hother u hu] at hd
      obtain hin | ⟨r', hin⟩ := h.sender u d hd hchannel hdstage
      · refine .inl ?_
        rwa [Registered, hpending]
      · refine .inr ⟨r', (hreader _ _ _).mpr ⟨hin, fun hp => ?_⟩⟩
        rw [hp, hsend] at hin
        exact hu (Reader.sending.inj hin).1.symm
  · intro u d hd hdstage
    by_cases hu : u = t
    · subst hu
      obtain rfl := Option.some.inj (hself.symm.trans hd)
      exact absurd hdstage hstage
    · exact h.drawn u d ((hother u hu).symm.trans hd) hdstage
  · intro u d hd
    by_cases hu : u = t
    · subst hu
      obtain rfl := Option.some.inj (hself.symm.trans hd)
      exact h.pipe_le u c hcall
    · exact h.pipe_le u d ((hother u hu).symm.trans hd)
  · intro q u r' hin
    have hold : (q, u, r') ∈ s.delivered → ∃ d, next.calls u = some d ∧ d.pipe = q ∧
        responseId r' = some d.id ∧ d.channel = .sent r' := by
      intro hlogged
      obtain ⟨d, hd, hrest⟩ := h.delivered q u r' hlogged
      have hu : u ≠ t := by
        rintro rfl
        exact hundelivered (List.mem_map.mpr ⟨(q, u, r'), hlogged, rfl⟩)
      exact ⟨d, (hother u hu).trans hd, hrest⟩
    obtain ⟨_, rfl⟩ | ⟨hsent, _, rfl⟩ := hlog
    · exact hold hin
    · obtain hin | hin := List.mem_append.mp hin
      · exact hold hin
      · obtain ⟨rfl, rfl, rfl⟩ := by simpa using hin
        exact ⟨_, hself, rfl, hid, hsent⟩
  · obtain ⟨_, rfl⟩ | ⟨_, _, rfl⟩ := hlog
    · exact h.once
    · rw [List.map_append]
      exact h.once.append (List.nodup_singleton _)
        (by simpa [List.disjoint_singleton] using hundelivered)
  · intro u d r' hd hchannel
    by_cases hu : u = t
    · subst hu
      obtain rfl := Option.some.inj (hself.symm.trans hd)
      obtain ⟨rfl, _⟩ | ⟨rfl, _, rfl⟩ := hlog
      · simp at hchannel
      · obtain rfl := Channel.sent.inj hchannel
        exact List.mem_append_right _ (List.mem_singleton_self _)
    · have hin := h.sent u d r' ((hother u hu).symm.trans hd) hchannel
      obtain ⟨_, rfl⟩ | ⟨_, _, rfl⟩ := hlog
      · exact hin
      · exact List.mem_append_left _ hin
  · intro u d r' hd hdstage
    by_cases hu : u = t
    · subst hu
      obtain rfl := Option.some.inj (hself.symm.trans hd)
      exact absurd (hconnected.symm.trans (h.outcome u c r' hcall hdstage)) (by simp)
    · exact h.outcome u d r' ((hother u hu).symm.trans hd) hdstage
  · exact h.nextId
  · intro u d hd
    by_cases hu : u = t
    · subst hu
      obtain rfl := Option.some.inj (hself.symm.trans hd)
      exact h.ids u c hcall
    · exact h.ids u d ((hother u hu).symm.trans hd)

theorem Inv.send (h : Inv s) (hsend : (s.pipelines p).reader = .sending t r) :
    Inv (s.send p t r) := by
  obtain ⟨c, hcall, _, _, hconnected, _⟩ := h.sending p t r hsend
  simp only [State.send, hcall]
  cases hover : c.stage.isOver with
  | true =>
    rw [if_pos rfl, disconnect_single (s := s.setPipeline _ _) hcall hconnected]
    exact h.release hsend hcall (.inl ⟨rfl, rfl⟩)
  | false =>
    refine h.release hsend hcall (.inr ⟨rfl, fun o ho => ?_, rfl⟩)
    rw [ho] at hover
    contradiction

theorem Inv.readLine (h : Inv s) (hreading : (s.pipelines p).reader = .reading) (line : Line B) :
    Inv (s.readLine p line) := by
  have hanswered : Inv (s.setPipeline p { s.pipelines p with answeredSinceSpawn := true }) :=
    h.setReader rfl (by simp [hreading]) (by simp [hreading])
  cases line with
  | blank => exact h
  | unparsable => exact h
  | response r =>
    cases hfound : (responseId r).bind fun id =>
        ((s.pipelines p).pending.lookup id).map (id, ·) with
    | none =>
      cases r with
      | progress id body => exact hanswered
      | transcription id body | modelLoaded id body | engineInfo id body | error id body =>
        simpa only [State.readLine, hfound] using hanswered
    | some found =>
      obtain ⟨id', hid, hmap⟩ := Option.bind_eq_some_iff.mp hfound
      obtain ⟨t', hlookup, rfl⟩ := Option.map_eq_some_iff.mp hmap
      have htaken : Inv (s.setPipeline p { s.pipelines p with
          answeredSinceSpawn := true
          pending := (s.pipelines p).pending.erase id'
          reader := .sending t' r }) := h.take hreading hlookup hid rfl rfl
      cases r with
      | progress id body => exact hanswered
      | transcription id body | modelLoaded id body | engineInfo id body | error id body =>
        simpa only [State.readLine, hfound] using htaken

theorem Inv.spawned (h : Inv s) : Inv { s.setPipeline (s.current + 1) .spawned with
    current := s.current + 1, respawning := false } := by
  have hold : ∀ t c, s.calls t = some c → c.pipe ≠ s.current + 1 := fun t c hcall hpipe =>
    Nat.not_succ_le_self _ (hpipe ▸ h.pipe_le t c hcall)
  constructor
  · intro q id t hmap
    by_cases hq : q = s.current + 1
    · subst hq
      simp [Pipeline.spawned] at hmap
    · simp only [setPipeline_of_ne _ _ hq] at hmap
      exact h.owner q id t hmap
  · intro q t r hsend
    by_cases hq : q = s.current + 1
    · subst hq
      simp [Pipeline.spawned] at hsend
    · simp only [setPipeline_of_ne _ _ hq] at hsend
      obtain ⟨c, hcall, hpipe, hid, hchannel, hstage, hfree⟩ := h.sending q t r hsend
      refine ⟨c, hcall, hpipe, hid, hchannel, hstage, ?_⟩
      simpa only [Registered, setPipeline_of_ne _ _ (hold t c hcall)] using hfree
  · intro t c hcall hchannel hstage
    simpa only [Registered, setPipeline_of_ne _ _ (hold t c hcall)] using
      h.sender t c hcall hchannel hstage
  · exact h.drawn
  · exact fun t c hcall => (h.pipe_le t c hcall).trans (Nat.le_succ _)
  · exact h.delivered
  · exact h.once
  · exact h.sent
  · exact h.outcome
  · exact h.nextId
  · exact h.ids

theorem Inv.step {e : Event T B} (h : Inv s) (hstep : Next s e s') : Inv s' := by
  cases hstep with
  | allocate t hidle hcall => exact h.allocate hcall
  | insert t c hcall hstage => exact h.insert hcall hstage
  | written t c hcall hstage =>
    exact h.setStage hcall (by simp [hstage]) (by simp) (by simp) (by simp)
  | unwritten t c hcall hstage =>
    exact h.setStage hcall (by simp [hstage]) (by simp) (by simp) (by simp)
  | cancelPending t c e hcall hstage =>
    obtain ⟨d, hd, hcut⟩ := calls_disconnect hcall ((s.pipelines c.pipe).pending.lookup c.id).toList
    refine (h.cancelPending c.pipe c.id).setStage hd (by simp [hcut.stage, hstage]) (by simp)
      (fun _ _ hin => ?_) (by simp)
    rw [Registered, hcut.pipe, hcut.id, State.cancelPending, setPipeline_self,
      AList.lookup_erase] at hin
    contradiction
  | received t c r hcall hstage hchannel =>
    refine h.setStage hcall (by simp [hstage]) (by simp) (fun o _ hin => ?_) (by simp [hchannel])
    obtain ⟨d, hd, _, _, hconnected, _⟩ := h.owner _ _ t hin
    obtain rfl := Option.some.inj (hcall.symm.trans hd)
    exact absurd (hchannel.symm.trans hconnected) (by simp)
  | closed t c hcall hstage hchannel =>
    exact h.setStage hcall (by simp [hstage]) (by simp) (by simp) (by simp)
  | timeout t c hcall hstage hchannel =>
    exact h.setStage hcall (by simp [hstage]) (by simp) (by simp) (by simp)
  | abandon t c hcall hstage =>
    have hold : c.stage ≠ .drawn := by
      obtain hstage | hstage := hstage <;> simp [hstage]
    exact h.setStage hcall hold (by simp) (by simp) (by simp)
  | readLine p line hspawned hreader => exact h.readLine hreader line
  | send p t r hreader => exact h.send hreader
  | exit p hspawned hreader =>
    refine (h.clear p).setReader rfl ?_ (by simp)
    simp [State.clear, hreader]
  | gone p hreader => exact h.setReader rfl (by simp [hreader]) (by simp)
  | respawn hidle halone =>
    obtain ⟨_, _, _, _, _, _, _, _, _, _, _⟩ := h.clear s.current
    constructor <;> assumption
  | spawned hrespawning => exact h.spawned
  | spawnFailed hrespawning =>
    obtain ⟨_, _, _, _, _, _, _, _, _, _, _⟩ := h
    constructor <;> assumption

end YapStack.Transcription
