import YapStack.Sync.Sound

set_option linter.unusedSectionVars false

namespace YapStack.Sync

open Relay.Sequence

variable {Client : Type} [DecidableEq Client] (cfg : Config Client)

/-- A successful answer to the batch the device waits on acknowledges each of its changes. -/
def Truthful (relay : Store Client) (d : Device Client) (input : Input Client) : Prop :=
  ∀ reply b total retry resp, input = .pushed reply → d.point = .awaitPush b total retry →
    receive b.level reply = .ok resp →
    List.Forall₂ (Acknowledges relay) (b.entries.map (OutboxEntry.change cfg.clientId)) resp.acks

/-- What holds of a device, its backups and the relay in every run. -/
structure World.Sound (w : World Client) : Prop where
  unique : w.relay.Unique
  answers : ∀ answer ∈ w.answers, List.Forall₂ (Acknowledges w.relay) answer.1 answer.2.acks
  wellFormed : w.device.WellFormed
  db : DbSound cfg w.relay w.device.db
  backups : ∀ db ∈ w.backups, DbSound cfg w.relay db
  point : PointSound cfg w.relay w.device.db w.device.point

variable {cfg} {relay : Store Client} {d d' : Device Client} {input : Input Client}
variable {w w' : World Client}

theorem sound_moved (hdb : DbSound cfg relay d.db) (hp : PointSound cfg relay d.db d.point)
    (hw : d.WellFormed) (ht : Truthful cfg relay d input) (hm : Device.Moved cfg d input d') :
    DbSound cfg relay d'.db ∧ PointSound cfg relay d'.db d'.point := by
  cases hm with
  | wrote hversion hadded => exact ⟨hdb.write hversion hadded, pointSound_write hp hversion hadded⟩
  | ran hq => exact ⟨hdb, hp⟩
  | respawned => exact ⟨hdb, trivial⟩
  | rested hr =>
    rw [hr.db]
    exact ⟨hdb, pointSound_of_neutral hr.point⟩
  | folded => exact ⟨hdb, trivial⟩
  | reseeded hq hqueue hpoint => exact ⟨hdb.reseed _, pointSound_of_neutral hpoint⟩
  | captured => exact ⟨hdb, Capturing.start hdb⟩
  | committed hq hpt hok hwm =>
    rw [hpt] at hp
    have hfits := hw.chunks _ (by rw [hpt]; exact List.mem_cons_self)
    exact ⟨hdb.commit hp hfits hok hwm, Capturing.commit hdb hp hfits hok hwm⟩
  | plannedOpen => exact ⟨hdb, trivial⟩
  | plannedGated =>
    refine ⟨hdb, ?_⟩
    simp only [Device.goTo]
    split <;> trivial
  | asked => exact ⟨hdb, trivial⟩
  | sent => exact ⟨hdb, trivial⟩
  | granted => exact ⟨hdb, trivial⟩
  | refused hq hpt hpoint => exact ⟨hdb, pointSound_of_neutral hpoint⟩
  | floored => exact ⟨hdb, trivial⟩
  | @answered b total retry reply resp hq hpt hr =>
    have hb := hw.batch b (by rw [hpt]; rfl)
    have hacks := ht reply b total retry resp rfl hpt hr
    have hall : ∀ a ∈ resp.acks, AckSound cfg relay d.db.outbox a :=
      fun a ha => ackSound_of_acknowledges hb hacks ha
    exact ⟨hdb, fun a ha => hall a (List.mem_filter.mp ha).1, hall⟩
  | acked hq hpt =>
    rw [hpt] at hp
    refine ⟨hdb.ack (hp.1 _ List.mem_cons_self), fun b hb => ?_, fun b hb => ?_⟩
    · exact (hp.1 b (List.mem_cons_of_mem _ hb)).ack _ _
    · exact (hp.2 b hb).ack _ _
  | checked hq hpt =>
    rw [hpt] at hp
    exact ⟨hdb, hp.2⟩
  | kept hq hpt =>
    rw [hpt] at hp
    exact ⟨hdb, fun a ha => hp a (List.mem_filter.mp ha).1, hp⟩

theorem receive_of_isError {α : Type} {reply : Reply α} {level : Int} {a : α}
    (h : reply.isError = true) : receive level reply ≠ .ok a := by
  intro hr
  cases reply with
  | sendFailed unreachable => cases hr
  | response status body =>
    cases body with
    | payload b => cases h
    | _ =>
      simp only [receive, bind, Except.bind, checkCapability] at hr
      split at hr
      · cases hr
      · rename_i v hv
        split at hv
        · cases hv
          simp only [checkAuth] at hr
          split_ifs at hr
        · cases hv

theorem World.Sound.appended {more : List (PushChange Client)} (h : w.Sound cfg)
    (hu : Store.Unique (w.relay ++ more)) : World.Sound cfg { w with relay := w.relay ++ more } := by
  refine ⟨hu, fun answer ha => ?_, h.wellFormed, h.db.append, fun db hdb => (h.backups db hdb).append,
    pointSound_append h.point⟩
  exact (h.answers answer ha).imp (fun c a hack => ⟨hack.1, hack.2.append⟩)

theorem World.Sound.driven (h : w.Sound cfg) (ht : Truthful cfg w.relay w.device input)
    (hstep : w.drive cfg input = some w') : w'.Sound cfg := by
  obtain ⟨d, hd, rfl⟩ := Option.map_eq_some_iff.mp hstep
  have hm := Device.step_moved hd
  obtain ⟨hdb, hp⟩ := sound_moved h.db h.point h.wellFormed ht hm
  exact ⟨h.unique, h.answers, Device.wellFormed_step h.wellFormed hm, hdb, h.backups, hp⟩

theorem World.Sound.served {changes : List (PushChange Client)} (h : w.Sound cfg) :
    (w.serve changes).Sound cfg := by
  simp only [World.serve]
  split
  · exact h
  · rename_i relay acks hpush
    have hp := push_pushed h.unique hpush
    obtain ⟨more, rfl, _⟩ := hp.extension
    have happ := h.appended hp.unique
    refine ⟨happ.unique, fun answer ha => ?_, happ.wellFormed, happ.db, happ.backups, happ.point⟩
    obtain ha | ha := List.mem_append.mp ha
    · exact happ.answers answer ha
    · rw [List.mem_singleton.mp ha]
      exact hp.acked

theorem World.sound_step (h : w.Sound cfg) {event : World.Event Client}
    (hstep : w.step cfg event = some w') : w'.Sound cfg := by
  cases event with
  | device input =>
    simp only [World.step] at hstep
    split at hstep
    · rename_i hun
      refine h.driven ?_ hstep
      rintro reply b total retry resp rfl _ hr
      exact absurd hr (receive_of_isError hun)
    · cases hstep
  | pushAnswered k =>
    obtain ⟨answer, hanswer, hstep⟩ := Option.bind_eq_some_iff.mp hstep
    split at hstep
    · rename_i hbatch
      refine h.driven ?_ hstep
      rintro reply b total retry resp heq hpt hr
      cases heq
      rw [hpt] at hbatch
      cases hr
      have hchanges : b.entries.map (OutboxEntry.change cfg.clientId) = answer.1 :=
        Option.some.inj hbatch
      rw [hchanges]
      exact h.answers answer (List.mem_of_getElem? hanswer)
    · cases hstep
  | tailAnswered k =>
    refine h.driven ?_ hstep
    rintro reply b total retry resp heq
    cases heq
  | backup =>
    cases hstep
    refine ⟨h.unique, h.answers, h.wellFormed, h.db, fun db hdb => ?_, h.point⟩
    obtain hdb | hdb := List.mem_append.mp hdb
    · exact h.backups db hdb
    · rw [List.mem_singleton.mp hdb]
      exact h.db
  | restore k =>
    obtain ⟨db, hdb, rfl⟩ := Option.map_eq_some_iff.mp hstep
    exact ⟨h.unique, h.answers, Device.wellFormed_of_neutral rfl,
      h.backups db (List.mem_of_getElem? hdb), h.backups, trivial⟩
  | serve k =>
    obtain ⟨r, _, hstep⟩ := Option.bind_eq_some_iff.mp hstep
    cases r with
    | push changes level =>
      cases hstep
      exact h.served
    | raise level => cases hstep
  | other changes =>
    simp only [World.step] at hstep
    split at hstep
    · cases hstep
      exact h
    · rename_i relay acks hpush
      cases hstep
      have hp := push_pushed h.unique hpush
      obtain ⟨more, rfl, _⟩ := hp.extension
      exact h.appended hp.unique

theorem World.sound_empty : (World.empty : World Client).Sound cfg := by
  refine ⟨List.nodup_nil, fun answer ha => (by cases ha), Device.wellFormed_of_neutral rfl, ?_,
    fun db hdb => (by cases hdb), trivial⟩
  refine ⟨fun e he => (by cases he), fun r hr => ?_, fun r hr => (by cases hr), le_refl _, le_refl _⟩
  cases hr.1

theorem World.sound_run (events : List (World.Event Client)) :
    Runs.Along (World.step cfg) (fun _ _ w => w.Sound cfg) World.empty events := by
  apply Runs.along_of_invariant (I := fun w : World Client => w.Sound cfg)
    (g := fun _ _ _ => True) _ _ World.sound_empty (Runs.along_true _ _)
  · exact fun w event w' h _ hstep => World.sound_step h hstep
  · exact fun w event w' h _ hstep => World.sound_step h hstep

variable (cfg) in
/-- In every run, an entry that is acked with a `changeset_seq` is at the relay
at that seq, under this device's pair, with exactly its bytes. -/
theorem acked_entries_stored (events : List (World.Event Client)) :
    Runs.Along (World.step cfg)
      (fun _ _ w => ∀ e ∈ w.device.db.outbox.entries, AckedStored cfg w.relay e)
      World.empty events :=
  Runs.Along.imp (fun _ _ _ h => h.db.acked) (World.sound_run events)

variable (cfg) in
/-- In every run, a row that the device's log holds as its own is above the
push watermark, or in an unacked entry, or in a changeset of the relay. -/
theorem no_local_change_lost (events : List (World.Event Client)) :
    Runs.Along (World.step cfg)
      (fun _ _ w => ∀ r, Own cfg w.device.db r → Safe cfg w.relay w.device.db r)
      World.empty events :=
  Runs.Along.imp (fun _ _ _ h => h.db.safe) (World.sound_run events)

end YapStack.Sync
