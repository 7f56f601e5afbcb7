import YapStack.Recording.PeerEdits

set_option linter.unusedSectionVars false

namespace YapStack.Recording.Peers

open YapStack.Runs YapStack.Sync.Crr

variable {Key : Type} [DecidableEq Key] {n : ℕ} {s t : State Key n}

namespace State

def rowsOf (s : State Key n) (k : Key) : Fin n → SessionRow := fun d => (s.devices d).rows k

/-- A change of the session is in an outbox or on the relay. -/
def Sent (s : State Key n) (k : Key) (c : Change Key Column Value) : Prop :=
  c.key = k ∧ ((∃ d, ∃ cs ∈ (s.devices d).outbox, c ∈ cs) ∨ ∃ cs ∈ s.relay, c ∈ cs)

/-- No device has a newer version of any part of the row. -/
def Latest (s : State Key n) (d : Fin n) (k : Key) : Prop :=
  ∀ e, ((s.devices e).rows k).cl ≤ ((s.devices d).rows k).cl ∧
    ∀ col, (s.devices e).version k col ≤ (s.devices d).version k col

/-- The status that the row shows was written on this device. -/
def WroteStatus (s : State Key n) (d : Fin n) (k : Key) : Prop :=
  ∀ v ∈ ((s.devices d).cell k .status).bind Cell.version,
    ∃ w ∈ s.history k .status, w.device = d ∧ w.version = v

/-- A session is resumed only from its latest row, and a boot finds no row that reads as its
own or as nobody's while its `recording` came from another device. -/
def Guard (s : State Key n) : Event Key n → State Key n → Prop
  | .resumeSession d k, _ => s.Latest d k
  | .boot d _ _, _ => ∀ k, (s.devices d).isRecording k = true →
      (s.devices d).notForeign d k = true → s.WroteStatus d k
  | _, _ => True

/-- The sweep leaves what another device records, and it closes what its own device recorded. -/
def Spares (s : State Key n) : Event Key n → State Key n → Prop
  | .boot d empties _, t =>
    (∀ e, e ≠ d → ∀ k ∈ (s.devices e).live,
      (t.devices d).value k .status = (s.devices d).value k .status) ∧
    ∀ k ∈ (s.devices d).interrupted,
      (t.devices d).value k .status = some .completed ∨
      ((t.devices d).value k .status = none ∧ k ∈ empties) ∨
      ∃ e, e ≠ d ∧ (t.devices d).value k .owner = some (.device e.val)
  | _, _ => True

def KeyInv (s : State Key n) (k : Key) : Prop :=
  Linear (s.rowsOf k) (s.history k) (s.Sent k) ∧
  ∀ d, (s.devices d).recording = some k → ∃ cells, Recorder (s.rowsOf k) (s.history k) d cells

/-- No device has seen a session yet. -/
def initial (n : ℕ) : State Key n :=
  ⟨fun _ => ⟨false, fun _ => .absent, none, fun _ _ => false, [], 0⟩, [], fun _ _ => []⟩

instance (s : State Key n) (d : Fin n) (k : Key) : Decidable (s.Latest d k) :=
  inferInstanceAs (Decidable (∀ _, _))

instance (s : State Key n) (d : Fin n) (k : Key) : Decidable (s.WroteStatus d k) :=
  inferInstanceAs (Decidable (∀ _ ∈ _, _))

instance [Fintype Key] (s : State Key n) (e : Event Key n) (t : State Key n) :
    Decidable (s.Guard e t) := by
  unfold Guard
  split <;> infer_instance

instance (s : State Key n) (e : Event Key n) (t : State Key n) : Decidable (s.Spares e t) := by
  unfold Spares
  split <;> infer_instance

theorem keyInv_initial (k : Key) : (initial n).KeyInv k := by
  refine ⟨⟨fun _ => Nat.zero_le _, fun _ => ?_, fun _ h => ?_, fun _ _ _ h => ?_, fun _ _ h => ?_,
    fun _ _ h => ?_, fun _ _ h => ?_, fun _ h => ?_, fun _ h => ?_, fun _ h => ?_,
    fun _ h => ?_⟩, fun _ h => ?_⟩
  · simp [rowsOf, initial, Row.absent]
  · simp [rowsOf, initial, Row.absent] at h
  · simp [initial] at h
  · simp [rowsOf, initial, Row.absent] at h
  · simp [rowsOf, initial, Row.absent] at h
  · simp [initial] at h
  · simp [initial] at h
  · simp [initial] at h
  · simp [initial] at h
  · simp [Sent, initial] at h
  · simp [initial] at h

variable {k : Key} {d : Fin n}

theorem KeyInv.of_eq (h : s.KeyInv k) (hrows : t.rowsOf k = s.rowsOf k)
    (hhist : t.history k = s.history k) (hsent : ∀ c, t.Sent k c → s.Sent k c)
    (hrec : ∀ d, (t.devices d).recording = some k → (s.devices d).recording = some k) :
    t.KeyInv k := by
  rw [KeyInv, hrows, hhist]
  exact ⟨h.1.capture (fun c hc => .inl (hsent c hc)), fun d hd => h.2 d (hrec d hd)⟩

@[simp] theorem devices_onDevice (s : State Key n) (d : Fin n) (v : Device Key) :
    (s.onDevice d v).devices d = v := by
  simp [onDevice]

@[simp] theorem devices_onDevice_of_ne (s : State Key n) (v : Device Key) {e : Fin n}
    (he : e ≠ d) : (s.onDevice d v).devices e = s.devices e := by
  simp [onDevice, he]

theorem rowsOf_onDevice (s : State Key n) (d : Fin n) (v : Device Key) (k : Key) :
    (s.onDevice d v).rowsOf k = Function.update (s.rowsOf k) d (v.rows k) := by
  funext e
  by_cases he : e = d
  · subst he
    simp [rowsOf]
  · simp [rowsOf, he]

theorem rowsOf_onDevice_same {v : Device Key} (hv : v.rows k = (s.devices d).rows k) :
    (s.onDevice d v).rowsOf k = s.rowsOf k := by
  rw [rowsOf_onDevice, hv]
  exact Function.update_eq_self d (s.rowsOf k)

theorem sent_of_onDevice {v : Device Key} {c : Change Key Column Value}
    (ho : v.outbox = (s.devices d).outbox) (hc : (s.onDevice d v).Sent k c) : s.Sent k c := by
  obtain ⟨hk, ⟨e, hout⟩ | hrelay⟩ := hc
  · refine ⟨hk, .inl ⟨e, ?_⟩⟩
    by_cases he : e = d
    · subst he
      rwa [devices_onDevice, ho] at hout
    · rwa [devices_onDevice_of_ne s v he] at hout
  · exact ⟨hk, .inr hrelay⟩

theorem recording_of_onDevice {v : Device Key} {e : Fin n}
    (hv : v.recording = some k → (s.devices d).recording = some k)
    (he : ((s.onDevice d v).devices e).recording = some k) :
    (s.devices e).recording = some k := by
  by_cases hed : e = d
  · subst hed
    rw [devices_onDevice] at he
    exact hv he
  · rwa [devices_onDevice_of_ne s v hed] at he

/-- A step that leaves a device's row, outbox and recording of the session alone. -/
theorem KeyInv.onDevice (h : s.KeyInv k) {v : Device Key}
    (hrows : v.rows k = (s.devices d).rows k) (ho : v.outbox = (s.devices d).outbox)
    (hv : v.recording = some k → (s.devices d).recording = some k) :
    (s.onDevice d v).KeyInv k :=
  h.of_eq (rowsOf_onDevice_same hrows) rfl (fun _ => sent_of_onDevice ho)
    (fun _ => recording_of_onDevice hv)

theorem rowsOf_edit (s : State Key n) (d : Fin n) (edits : Key → Edit) (k : Key) :
    (s.edit d edits).rowsOf k =
      Function.update (s.rowsOf k) d ((edits k).apply (s.rowsOf k d)) :=
  rowsOf_onDevice s d ((s.devices d).edit edits) k

theorem history_edit (s : State Key n) (d : Fin n) (edits : Key → Edit) (k : Key) :
    (s.edit d edits).history k = noted d (edits k) (s.rowsOf k d) (s.history k) := rfl

theorem noted_keep (d : Fin n) (row : SessionRow) (history : Column → List (Write n)) :
    noted d .keep row history = history := by
  funext col
  simp [noted, Edit.writes]

theorem noted_delete (d : Fin n) (row : SessionRow) (history : Column → List (Write n)) :
    noted d .delete row history = history := by
  funext col
  simp [noted, Edit.writes]

theorem sent_edit {edits : Key → Edit} {c : Change Key Column Value}
    (hc : (s.edit d edits).Sent k c) : s.Sent k c :=
  sent_of_onDevice (v := (s.devices d).edit edits) rfl hc

theorem devices_edit (s : State Key n) (d : Fin n) (edits : Key → Edit) :
    (s.edit d edits).devices d = (s.devices d).edit edits :=
  devices_onDevice s d ((s.devices d).edit edits)

theorem devices_edit_of_ne (s : State Key n) (edits : Key → Edit) {e : Fin n} (he : e ≠ d) :
    (s.edit d edits).devices e = s.devices e :=
  devices_onDevice_of_ne s ((s.devices d).edit edits) he

theorem recording_edit {edits : Key → Edit} {e : Fin n} :
    ((s.edit d edits).devices e).recording = (s.devices e).recording := by
  by_cases hed : e = d
  · subst hed
    rw [devices_edit]
    rfl
  · rw [devices_edit_of_ne s edits hed]

theorem KeyInv.keep (h : s.KeyInv k) {edits : Key → Edit} (he : edits k = .keep) :
    (s.edit d edits).KeyInv k := by
  refine h.of_eq ?_ ?_ (fun _ => sent_edit) (fun _ he => recording_edit.symm.trans he)
  · rw [rowsOf_edit, he]
    exact Function.update_eq_self d (s.rowsOf k)
  · rw [history_edit, he, noted_keep]

theorem KeyInv.setRecording (h : s.KeyInv k) {r : Option Key}
    (hr : r = some k → ∃ cells, Recorder (s.rowsOf k) (s.history k) d cells) :
    (s.setRecording d r).KeyInv k := by
  have hrows : (s.setRecording d r).rowsOf k = s.rowsOf k :=
    rowsOf_onDevice_same (v := { s.devices d with recording := r }) rfl
  have hsent : ∀ c, (s.setRecording d r).Sent k c → s.Sent k c := fun _ =>
    sent_of_onDevice (v := { s.devices d with recording := r }) rfl
  rw [KeyInv, hrows]
  refine ⟨h.1.capture (fun c hc => .inl (hsent c hc)), fun e he => ?_⟩
  by_cases hed : e = d
  · subst hed
    rw [State.setRecording, devices_onDevice] at he
    exact hr he
  · rw [State.setRecording, devices_onDevice_of_ne s _ hed] at he
    exact h.2 e he

theorem insert_inv (h : ∀ k, s.KeyInv k) (hfresh : ∀ col, s.history k col = []) (d : Fin n)
    (j : Key) :
    (s.insert d k).KeyInv j ∧
      (j = k → ∃ cells, Recorder ((s.insert d k).rowsOf j) ((s.insert d k).history j) d cells) := by
  let v := s.devices d
  let v' : Device Key := { v with
    rows := Function.update v.rows k (.inserted (insertedValues d))
    pending := Function.update v.pending k (fun col => col.isSome) }
  have hrows : (s.insert d k).rowsOf j = Function.update (s.rowsOf j) d (v'.rows j) :=
    rowsOf_onDevice s d v' j
  have hsent : ∀ c, (s.insert d k).Sent j c → s.Sent j c := fun _ =>
    sent_of_onDevice (v := v') rfl
  have hrecording : ∀ e, ((s.insert d k).devices e).recording = some j →
      (s.devices e).recording = some j := fun _ => recording_of_onDevice (v := v') (fun h => h)
  have hlinear := (h j).1
  by_cases hj : j = k
  · subst hj
    have hrow : v'.rows j = .inserted (insertedValues d) := Function.update_self ..
    have hhist : (s.insert d j).history j = fun col => [⟨d, insertedValues d col, 1⟩] :=
      Function.update_self ..
    rw [KeyInv, hrows, hhist, hrow]
    refine ⟨⟨(hlinear.insert hfresh d).capture (fun c hc => .inl (hsent c hc)), fun e he => ?_⟩,
      fun _ => ⟨_, hlinear.inserted hfresh d⟩⟩
    obtain ⟨cells, hrec⟩ := (h j).2 e (hrecording e he)
    have hone := hlinear.cl_eq_one hrec.has
    exact absurd (hfresh .status) (hlinear.born e (by omega) .status)
  · have hrow : v'.rows j = (s.devices d).rows j := Function.update_of_ne hj ..
    have hhist : (s.insert d k).history j = s.history j := Function.update_of_ne hj ..
    refine ⟨(h j).of_eq (hrows.trans ?_) hhist hsent hrecording, fun he => absurd he hj⟩
    rw [hrow]
    exact Function.update_eq_self d (s.rowsOf j)

theorem only_self (k : Key) (e : Edit) : Device.only k e k = e := if_pos rfl

theorem only_of_ne {j : Key} (hj : j ≠ k) (e : Edit) : Device.only k e j = .keep := if_neg hj

/-- The rows and writes of a session after one device edited it. -/
theorem KeyInv.edited {edits : Key → Edit} {e : Edit} (he : edits k = e)
    (hlin : Linear (Function.update (s.rowsOf k) d (e.apply (s.rowsOf k d)))
      (noted d e (s.rowsOf k d) (s.history k)) (s.Sent k))
    (hrec : ∀ f, (s.devices f).recording = some k →
      ∃ cells, Recorder (Function.update (s.rowsOf k) d (e.apply (s.rowsOf k d)))
        (noted d e (s.rowsOf k d) (s.history k)) f cells) :
    (s.edit d edits).KeyInv k := by
  rw [KeyInv, rowsOf_edit, history_edit, he]
  refine ⟨hlin.capture (fun c hc => .inl (sent_edit hc)), fun f hf => hrec f ?_⟩
  rwa [recording_edit] at hf

theorem upToDate_of_latest (h : s.KeyInv k) (hl : s.Latest d k) {cells : Column → Cell Value}
    (hc : (s.rowsOf k d).cells = some cells) :
    UpToDate (s.rowsOf k) (s.history k) d cells := by
  have hd : ((s.devices d).rows k).cells = some cells := hc
  refine h.1.upToDate_of_dominates hc (fun e => (hl e).1) (fun e cells' col v hc' hv => ?_)
  have he : ((s.devices e).rows k).cells = some cells' := hc'
  have hle := (hl e).2 col
  simpa [Device.version, Device.cell, he, hd, hv] using hle

theorem resumeSession_inv (h : ∀ k, s.KeyInv k) (hl : s.Latest d k)
    (hdone : (s.devices d).value k .status = some .completed) (j : Key) :
    ((s.edit d (Device.only k (Device.recordingEdit d))).setRecording d (some k)).KeyInv j := by
  by_cases hj : j = k
  · subst hj
    obtain ⟨c, hc, hval⟩ := Option.map_eq_some_iff.mp hdone
    obtain ⟨cells, hcells, rfl⟩ := Option.map_eq_some_iff.mp hc
    have hup : UpToDate (s.rowsOf j) (s.history j) d cells := upToDate_of_latest (h j) hl hcells
    obtain ⟨hlin, hrec⟩ := (h j).1.resumed hup hval
    have hself := only_self j (Device.recordingEdit d)
    refine (KeyInv.edited hself hlin (fun e he => ?_)).setRecording (fun _ => ?_)
    · obtain ⟨cells', he'⟩ := (h j).2 e he
      exact (he'.not_completed (h j).1 hup hval).elim
    · rw [rowsOf_edit, history_edit, hself]
      exact ⟨_, hrec⟩
  · exact ((h j).keep (only_of_ne hj _)).setRecording (fun he => absurd (Option.some.inj he).symm hj)

theorem author_unique (h : s.KeyInv k) {e : Fin n}
    (hauthor : ∀ w ∈ s.history k .status, w.version = (s.history k .status).length →
      w.device = d) (he : (s.devices e).recording = some k) : e = d := by
  obtain ⟨cells, hrec⟩ := h.2 e he
  obtain ⟨w, hw, hlast⟩ := h.1.exists_last (h.1.cl_eq_one hrec.has)
  exact (hrec.author w hw hlast).symm.trans (hauthor w hw hlast)

/-- A device that recorded a session last closes it, or deletes it. -/
theorem ended_inv (h : s.KeyInv k) {edits : Key → Edit} {cells : Column → Cell Value}
    (hc : (s.rowsOf k d).cells = some cells)
    (hlast : (cells .status).version = some (s.history k .status).length)
    (hauthor : ∀ w ∈ s.history k .status, w.version = (s.history k .status).length →
      w.device = d)
    (he : edits k = .delete ∨ edits k = Device.completedEdit) :
    ((s.edit d edits).setRecording d none).KeyInv k := by
  have hone := h.1.cl_eq_one hc
  have hlin : Linear ((s.edit d edits).rowsOf k) ((s.edit d edits).history k) (s.Sent k) := by
    rw [rowsOf_edit, history_edit]
    rcases he with he | he
    · rw [he, noted_delete]
      have hrow : Edit.delete.apply (s.rowsOf k d) = ⟨2, none⟩ := by
        simp [Edit.apply, hc, Row.deleted, hone]
      rw [hrow]
      exact h.1.bury (e := d) (by omega) d
    · rw [he]
      exact h.1.completed hc hlast hauthor
  have hrows : ((s.edit d edits).setRecording d none).rowsOf k = (s.edit d edits).rowsOf k :=
    rowsOf_onDevice_same (v := { (s.edit d edits).devices d with recording := none }) rfl
  have hsent : ∀ c, ((s.edit d edits).setRecording d none).Sent k c → s.Sent k c :=
    fun _ hc => sent_edit (sent_of_onDevice
      (v := { (s.edit d edits).devices d with recording := none }) rfl hc)
  rw [KeyInv, hrows]
  refine ⟨hlin.capture (fun c hc => .inl (hsent c hc)), fun e hr => ?_⟩
  by_cases hed : e = d
  · subst hed
    rw [setRecording, devices_onDevice] at hr
    cases hr
  · rw [setRecording, devices_onDevice_of_ne _ _ hed, recording_edit] at hr
    exact absurd (author_unique h hauthor hr) hed

theorem completeSession_inv (h : ∀ k, s.KeyInv k) (hr : (s.devices d).recording = some k)
    (j : Key) :
    ((s.edit d (Device.only k Device.completedEdit)).setRecording d none).KeyInv j := by
  by_cases hj : j = k
  · subst hj
    obtain ⟨cells, hrec⟩ := (h j).2 d hr
    exact ended_inv (h j) hrec.has (hrec.last .status) hrec.author (.inr (only_self j _))
  · exact ((h j).keep (only_of_ne hj _)).setRecording (fun he => by cases he)

section Sweep

variable {empties stales : List Key}

/-- What the sweep ends reads as recorded here, or by nobody. -/
theorem sweepEdit_cases (v : Device Key) (d : Fin n) (empties stales : List Key) (k : Key) :
    v.sweepEdit d empties stales k = .keep ∨
    ((v.sweepEdit d empties stales k = .delete ∨
        v.sweepEdit d empties stales k = Device.completedEdit) ∧
      v.isRecording k = true ∧ v.notForeign d k = true) := by
  simp only [Device.sweepEdit]
  split
  · rename_i hdel
    simp only [Bool.and_eq_true] at hdel
    exact .inr ⟨.inl rfl, hdel.1.1.1, hdel.1.2⟩
  · split
    · rename_i hfin
      simp only [Bool.and_eq_true] at hfin
      exact .inr ⟨.inr rfl, hfin.1.1.1, hfin.1.1.2⟩
    · exact .inl rfl

/-- A session that the sweep ends was last recorded by the device itself. -/
theorem swept_last (h : s.KeyInv k) (hrec : (s.devices d).isRecording k = true)
    (hnf : (s.devices d).notForeign d k = true) (hw : s.WroteStatus d k) :
    ∃ cells, (s.rowsOf k d).cells = some cells ∧
      (cells .status).version = some (s.history k .status).length ∧
      ∀ w ∈ s.history k .status, w.version = (s.history k .status).length → w.device = d := by
  obtain ⟨c, hc, hval⟩ := Option.map_eq_some_iff.mp (of_decide_eq_true hrec)
  obtain ⟨cells, hcells, rfl⟩ := Option.map_eq_some_iff.mp hc
  refine ⟨cells, hcells, h.1.last_of_swept hcells hval ?_ (fun v hv => ?_)⟩
  · simpa [Device.notForeign, Device.value, Device.cell, hcells] using hnf
  · exact hw v (by simpa [Device.cell, hcells] using hv)

theorem boot_inv (h : ∀ k, s.KeyInv k)
    (hg : ∀ k, (s.devices d).isRecording k = true → (s.devices d).notForeign d k = true →
      s.WroteStatus d k) (k : Key) :
    ((s.edit d ((s.devices d).sweepEdit d empties stales)).setRecording d none).KeyInv k := by
  rcases sweepEdit_cases (s.devices d) d empties stales k with
    hkeep | ⟨he, hrec, hnf⟩
  · exact ((h k).keep hkeep).setRecording (fun he => by cases he)
  · obtain ⟨cells, hc, hlast, hauthor⟩ := swept_last (h k) hrec hnf (hg k hrec hnf)
    exact ended_inv (h k) hc hlast hauthor he

end Sweep

theorem change_captured {c : Change Key Column Value} {k' : Key} {col : Option Column}
    (hc : (s.devices d).change k' col = some c) : c.key = k' ∧
      ((c.cl = (s.rowsOf k' d).cl ∧ c.write = none ∧ (s.rowsOf k' d).cells = none ∧
        0 < (s.rowsOf k' d).cl) ∨
      ∃ cells col v, (s.rowsOf k' d).cells = some cells ∧ (cells col).version = some v ∧
        c.cl = (s.rowsOf k' d).cl ∧ c.write = some ⟨col, (cells col).value, v⟩) := by
  cases col with
  | none =>
    simp only [Device.change, Option.ite_none_right_eq_some, Option.some.injEq,
      Bool.and_eq_true, Option.isNone_iff_eq_none, decide_eq_true_eq] at hc
    obtain ⟨⟨hnone, hpos⟩, rfl⟩ := hc
    exact ⟨rfl, .inl ⟨rfl, rfl, hnone, hpos⟩⟩
  | some col =>
    obtain ⟨cell, hcell, hmap⟩ := Option.bind_eq_some_iff.mp hc
    obtain ⟨v, hv, rfl⟩ := Option.map_eq_some_iff.mp hmap
    obtain ⟨cells, hcells, rfl⟩ := Option.map_eq_some_iff.mp hcell
    exact ⟨rfl, .inr ⟨cells, col, v, hcells, hv, rfl, rfl⟩⟩

theorem capture_inv (h : s.KeyInv k) {chunks : List (List (Key × Option Column))}
    {v : Device Key} (hrows : v.rows = (s.devices d).rows)
    (hrec : v.recording = (s.devices d).recording)
    (ho : v.outbox = (s.devices d).outbox ++
      chunks.map (fun chunk => chunk.filterMap (fun p => (s.devices d).change p.1 p.2))) :
    (s.onDevice d v).KeyInv k := by
  have hsame : (s.onDevice d v).rowsOf k = s.rowsOf k :=
    rowsOf_onDevice_same (congrFun hrows k)
  rw [KeyInv, hsame]
  refine ⟨h.1.capture (fun c hc => ?_), fun e he => ?_⟩
  · obtain ⟨hk, ⟨e, cs, hcs, hmem⟩ | hrelay⟩ := hc
    · by_cases hed : e = d
      · subst hed
        rw [devices_onDevice, ho, List.mem_append, List.mem_map] at hcs
        rcases hcs with hold | ⟨chunk, -, rfl⟩
        · exact .inl ⟨hk, .inl ⟨e, cs, hold, hmem⟩⟩
        · obtain ⟨p, -, hp⟩ := List.mem_filterMap.mp hmem
          obtain ⟨hkey, hcap⟩ := change_captured hp
          rw [← hkey, hk] at hcap
          exact .inr (hcap.imp (fun hc => ⟨e, hc⟩) (fun hc => ⟨e, hc⟩))
      · rw [devices_onDevice_of_ne s v hed] at hcs
        exact .inl ⟨hk, .inl ⟨e, cs, hcs, hmem⟩⟩
    · exact .inl ⟨hk, .inr hrelay⟩
  · exact h.2 e (recording_of_onDevice (fun hr => hrec ▸ hr) he)

theorem push_inv (h : s.KeyInv k) {cs : List (Change Key Column Value)}
    {rest : List (List (Change Key Column Value))} (ho : (s.devices d).outbox = cs :: rest) :
    KeyInv { s.onDevice d { s.devices d with outbox := rest } with relay := s.relay ++ [cs] } k := by
  let v : Device Key := { s.devices d with outbox := rest }
  refine h.of_eq (rowsOf_onDevice_same (v := v) rfl) rfl (fun c hc => ?_)
    (fun _ => recording_of_onDevice (v := v) (fun h => h))
  have hhead : cs ∈ (s.devices d).outbox := by
    rw [ho]
    exact List.mem_cons_self
  obtain ⟨hk, ⟨e, cs', hcs, hmem⟩ | ⟨cs', hcs, hmem⟩⟩ := hc
  · refine ⟨hk, .inl ⟨e, cs', ?_, hmem⟩⟩
    by_cases hed : e = d
    · subst hed
      have hself : cs' ∈ rest := by
        simpa [onDevice] using hcs
      rw [ho]
      exact List.mem_cons_of_mem cs hself
    · simpa [onDevice, hed] using hcs
  · rcases List.mem_append.mp hcs with hold | hnew
    · exact ⟨hk, .inr ⟨cs', hold, hmem⟩⟩
    · rw [List.mem_singleton] at hnew
      subst hnew
      exact ⟨hk, .inl ⟨d, cs', hhead, hmem⟩⟩

theorem mergeAll_frame (cs : List (Change Key Column Value)) (v : Device Key) :
    (cs.foldl Device.mergeChange v).outbox = v.outbox ∧
      (cs.foldl Device.mergeChange v).recording = v.recording := by
  induction cs generalizing v with
  | nil => exact ⟨rfl, rfl⟩
  | cons c cs ih => exact ih (v.mergeChange c)

theorem mergeAll_inv {cs : List (Change Key Column Value)} (hs : ∀ c ∈ cs, s.Sent c.key c)
    {v : Device Key}
    (hv : ∀ k, Linear (Function.update (s.rowsOf k) d (v.rows k)) (s.history k) (s.Sent k) ∧
      ∀ e, (s.devices e).recording = some k → ∃ cells,
        Recorder (Function.update (s.rowsOf k) d (v.rows k)) (s.history k) e cells) (k : Key) :
    Linear (Function.update (s.rowsOf k) d ((cs.foldl Device.mergeChange v).rows k))
      (s.history k) (s.Sent k) ∧
    ∀ e, (s.devices e).recording = some k → ∃ cells,
      Recorder (Function.update (s.rowsOf k) d ((cs.foldl Device.mergeChange v).rows k))
        (s.history k) e cells := by
  induction cs generalizing v with
  | nil => exact hv k
  | cons c cs ih =>
    apply ih (fun c' hc' => hs c' (List.mem_cons_of_mem c hc'))
    intro j
    have hsent := hs c List.mem_cons_self
    by_cases hj : j = c.key
    · subst hj
      have hrow : (v.mergeChange c).rows c.key = mergeInsert
          (Function.update (s.rowsOf c.key) d (v.rows c.key) d) c default := by
        rw [Function.update_self]
        exact Function.update_self ..
      obtain ⟨hlin, hrec⟩ := hv c.key
      have hmerged := hlin.merge hsent d
      rw [Function.update_idem, ← hrow] at hmerged
      refine ⟨hmerged, fun e he => ?_⟩
      obtain ⟨cells, hcells⟩ := hrec e he
      have hkept := hcells.merge hlin hsent d
      rw [Function.update_idem, ← hrow] at hkept
      exact ⟨cells, hkept⟩
    · have hrow : (v.mergeChange c).rows j = v.rows j := Function.update_of_ne hj ..
      rw [hrow]
      exact hv j

theorem merge_inv (h : ∀ k, s.KeyInv k) {cs : List (Change Key Column Value)}
    (hcs : cs ∈ s.relay) (m : ℕ) (k : Key) :
    (s.onDevice d { cs.foldl Device.mergeChange (s.devices d) with merged := m }).KeyInv k := by
  let v : Device Key := { cs.foldl Device.mergeChange (s.devices d) with merged := m }
  obtain ⟨ho, hr⟩ := mergeAll_frame cs (s.devices d)
  have hstart : ∀ k, Function.update (s.rowsOf k) d ((s.devices d).rows k) = s.rowsOf k :=
    fun k => Function.update_eq_self d (s.rowsOf k)
  obtain ⟨hlin, hrec⟩ := mergeAll_inv (v := s.devices d) (d := d)
    (fun c hc => ⟨rfl, .inr ⟨cs, hcs, hc⟩⟩) (fun k => by rw [hstart]; exact h k) k
  rw [KeyInv, rowsOf_onDevice]
  refine ⟨hlin.capture (fun c hc => .inl (sent_of_onDevice (v := v) ho hc)), fun e he => hrec e ?_⟩
  exact recording_of_onDevice (v := v) (fun hv => hr ▸ hv) he

theorem boot_eq (s : State Key n) (d : Fin n) (edits : Key → Edit) :
    let t := s.edit d edits
    t.onDevice d { t.devices d with running := true, recording := none } =
      (t.setRecording d none).onDevice d
        { (t.setRecording d none).devices d with running := true } := by
  simp [setRecording, onDevice]

theorem step_inv (h : ∀ k, s.KeyInv k) {e : Event Key n} (hg : s.Guard e t)
    (ht : s.step e = some t) (k : Key) : t.KeyInv k := by
  cases e with
  | createSession d j =>
    simp only [step, Option.ite_none_right_eq_some, Option.some.injEq, Bool.and_eq_true,
      decide_eq_true_eq] at ht
    obtain ⟨⟨⟨-, hstatus⟩, howner⟩, rfl⟩ := ht
    have hfresh : ∀ col, s.history j col = [] := fun col => by
      cases col with
      | status => exact hstatus
      | owner => exact howner
    obtain ⟨hinv, hrec⟩ := insert_inv h hfresh d k
    exact hinv.setRecording (fun he => hrec (Option.some.inj he).symm)
  | resumeSession d j =>
    simp only [step, Option.ite_none_right_eq_some, Option.some.injEq, Bool.and_eq_true,
      decide_eq_true_eq] at ht
    obtain ⟨⟨-, hdone⟩, rfl⟩ := ht
    exact resumeSession_inv h hg hdone k
  | completeSession d =>
    simp only [step] at ht
    split at ht
    · rename_i j _ hr
      cases ht
      exact completeSession_inv h hr k
    · cases ht
  | exit d =>
    simp only [step, Option.ite_none_right_eq_some, Option.some.injEq] at ht
    obtain ⟨-, rfl⟩ := ht
    exact (h k).onDevice rfl rfl (fun hr => hr)
  | boot d empties stales =>
    simp only [step, Option.ite_none_left_eq_some, Option.some.injEq] at ht
    obtain ⟨-, rfl⟩ := ht
    rw [boot_eq]
    exact (boot_inv h hg k).onDevice rfl rfl (fun hr => hr)
  | capture d chunks =>
    simp only [step, Option.ite_none_right_eq_some, Option.some.injEq] at ht
    obtain ⟨-, rfl⟩ := ht
    exact capture_inv (h k) rfl rfl rfl
  | push d =>
    simp only [step] at ht
    split at ht
    · rename_i cs rest _ ho
      cases ht
      exact push_inv (h k) ho
    · cases ht
  | merge d =>
    simp only [step, Option.ite_none_right_eq_some, Option.map_eq_some_iff] at ht
    obtain ⟨-, cs, hcs, rfl⟩ := ht
    exact merge_inv h (List.mem_of_getElem? hcs) _ k

/-- The status of a session after an edit. -/
theorem value_edit (v : Device Key) (edits : Key → Edit) (k : Key) :
    (edits k = .keep → (v.edit edits).value k .status = v.value k .status) ∧
    (edits k = .delete → (v.edit edits).value k .status = none) ∧
    (edits k = Device.completedEdit → (v.rows k).cells.isSome = true →
      (v.edit edits).value k .status = some .completed) := by
  refine ⟨fun he => ?_, fun he => ?_, fun he hsome => ?_⟩
  · simp [Device.value, Device.cell, Device.edit, he, Edit.apply]
  · cases hc : (v.rows k).cells with
    | none => simp [Device.value, Device.cell, Device.edit, he, Edit.apply, hc]
    | some cells => simp [Device.value, Device.cell, Device.edit, he, Edit.apply, hc, Row.deleted]
  · obtain ⟨cells, hc⟩ := Option.isSome_iff_exists.mp hsome
    simp [Device.value, Device.cell, Device.edit, he, Device.completedEdit, Edit.apply, hc,
      setCells, Device.completedValues, updated_value]

/-- The sweep ends every recording that its own device stamped. -/
theorem sweepEdit_own {v : Device Key} {empties stales : List Key}
    (hrec : v.isRecording k = true) (hown : v.value k .owner = some (.device d.val)) :
    v.sweepEdit d empties stales k = if k ∈ empties then .delete else Device.completedEdit := by
  by_cases he : k ∈ empties
  · simp [Device.sweepEdit, Device.notForeign, hrec, hown, he]
  · simp [Device.sweepEdit, Device.notForeign, hrec, hown, he]

/-- One boot, in a state that the guarded runs reach. -/
theorem boot_spares (h : ∀ k, s.KeyInv k) {e : Event Key n} (hg : s.Guard e t)
    (ht : s.step e = some t) : s.Spares e t := by
  cases e with
  | boot d empties stales =>
    simp only [step, Option.ite_none_left_eq_some, Option.some.injEq] at ht
    obtain ⟨hdown, rfl⟩ := ht
    let v := s.devices d
    let edits := v.sweepEdit d empties stales
    have hvalue : ∀ k col, (((s.edit d edits).onDevice d { (s.edit d edits).devices d with
        running := true, recording := none }).devices d).value k col =
        (v.edit edits).value k col := by
      intro k col
      rw [devices_onDevice, devices_edit]
      rfl
    refine ⟨fun e he k hk => ?_, fun k hk => ?_⟩
    · have hlive : (s.devices e).recording = some k := by
        simp only [Device.live, Option.mem_def] at hk
        split at hk
        · exact hk
        · cases hk
      rw [hvalue]
      rcases sweepEdit_cases v d empties stales k with hkeep | ⟨-, hrec, hnf⟩
      · exact (value_edit v edits k).1 hkeep
      · obtain ⟨cells, -, -, hauthor⟩ := swept_last (h k) hrec hnf (hg k hrec hnf)
        exact absurd (author_unique (h k) hauthor hlive) he
    · have hwas : v.recording = some k := by
        simp only [Device.interrupted, Option.mem_def] at hk
        split at hk
        · cases hk
        · exact hk
      obtain ⟨cells, hrecorder⟩ := (h k).2 d hwas
      have hcells : (v.rows k).cells = some cells := hrecorder.has
      have hrec : v.isRecording k = true := by
        simp [Device.isRecording, Device.value, Device.cell, hcells, hrecorder.recording]
      have hown : v.value k .owner = some (.device d.val) := by
        simp [Device.value, Device.cell, hcells, hrecorder.own]
      have hedit : edits k = if k ∈ empties then .delete else Device.completedEdit :=
        sweepEdit_own hrec hown
      rw [hvalue, hvalue]
      split at hedit
      · exact .inr (.inl ⟨(value_edit v edits k).2.1 hedit, ‹_›⟩)
      · exact .inl ((value_edit v edits k).2.2 hedit (by rw [hcells]; rfl))
  | _ => trivial

/-- In a run that resumes sessions from their latest rows and boots no device on a half merged
recording, no sweep ends another device's recording, and each ends its own. -/
theorem sweeps_end_own_recordings (es : List (Event Key n))
    (hg : Along step Guard (initial n) es) : Along step Spares (initial n) es := by
  have hstep : ∀ (s : State Key n) e t, (∀ k, s.KeyInv k) → s.Guard e t → s.step e = some t →
      ∀ k, t.KeyInv k := fun _ _ _ h hg ht => step_inv h hg ht
  exact along_of_invariant hstep (fun _ _ _ h hg ht => boot_spares h hg ht) keyInv_initial hg

/-- Device 1 resumes what device 0 recorded, and both halves of its stamp arrive before device 0
boots; then both recorders go down and come back. -/
theorem sweeps_end_own_recordings_resumed :
    Along step Spares (initial 2) [.boot 0 [] [], .boot 1 [] [], .createSession 0 (0 : Fin 2),
      .capture 0 [[(0, some .status), (0, some .owner)]], .push 0, .merge 1, .completeSession 0,
      .capture 0 [[(0, some .status)]], .push 0, .merge 1, .resumeSession 1 0,
      .capture 1 [[(0, some .status)], [(0, some .owner)]], .push 1, .push 1, .merge 0, .merge 0,
      .merge 0, .merge 0, .createSession 0 1, .exit 0, .boot 0 [1] [0, 1], .exit 1, .boot 1 [] []] :=
  sweeps_end_own_recordings _ (by decide +kernel)

/-- The status of device 1's resume arrives without its stamp, and device 0 restarts. -/
theorem half_merged_resume_is_ended :
    ¬ ∀ es : List (Event (Fin 1) 2), Along step Spares (initial 2) es := by
  intro h
  have hrun := h [.boot 0 [] [], .boot 1 [] [], .createSession 0 0,
    .capture 0 [[(0, some .status), (0, some .owner)]], .push 0, .merge 1, .completeSession 0,
    .capture 0 [[(0, some .status)]], .push 0, .merge 1, .resumeSession 1 0,
    .capture 1 [[(0, some .status)], [(0, some .owner)]], .push 1, .merge 0, .merge 0, .merge 0,
    .exit 0, .boot 0 [] []]
  revert hrun
  decide +kernel

end State

end YapStack.Recording.Peers
