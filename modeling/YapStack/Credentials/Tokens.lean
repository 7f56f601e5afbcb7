import YapStack.Credentials.Store
import YapStack.Foundation.Runs

namespace YapStack.Credentials

open YapStack.Runs

def Task.isRefresh : Task → Bool
  | .refresh _ _ _ | .storeRefreshed _ => true
  | _ => false

namespace Cells

variable {c d : Cells}

/-- The record belongs to the sign-in in force, and its token is not a spent one. -/
structure Sound (c : Cells) : Prop where
  active : ∀ s, c.record = some s → c.active = some s.login
  known : ∀ s, c.record = some s → s.login < c.logins
  unspent : ∀ s g, c.record = some s → s.refresh = some g → c.stored s.login ≤ g
  fresh : ∀ l, c.logins ≤ l → c.stored l = 0

/-- What the copies under way are good for. -/
def TaskOk (c : Cells) : Task → Prop
  | .refresh copy token _ => copy.login < c.logins ∧ c.stored copy.login ≤ token
  | .storeRefreshed copy =>
    copy.login < c.logins ∧ ∃ g, copy.refresh = some g ∧ c.stored copy.login ≤ g
  | .storeExpired copy _ => copy.login < c.logins ∧ copy.refresh = none
  | .storeEnabled copy => copy.login < c.logins
  | _ => True

theorem TaskOk.mono {k : Task} (h : TaskOk c k) (hl : c.logins ≤ d.logins)
    (hs : k.isRefresh = true → d.stored = c.stored) : TaskOk d k := by
  cases k with
  | refresh copy token drain =>
    rw [TaskOk, hs rfl]
    exact ⟨Nat.lt_of_lt_of_le h.1 hl, h.2⟩
  | storeRefreshed copy =>
    rw [TaskOk, hs rfl]
    exact ⟨Nat.lt_of_lt_of_le h.1 hl, h.2⟩
  | storeExpired copy login => exact ⟨Nat.lt_of_lt_of_le h.1 hl, h.2⟩
  | storeEnabled copy => exact Nat.lt_of_lt_of_le h hl
  | _ => trivial

/-- The condition under which a step keeps the tokens safe: a whole record is written back only
while the sign-in it was read from is in force, and an expiry or an enable only if no refresh
of its token has been stored since. -/
def ActsAlone (c : Cells) : Task → Answer → Prop
  | .storeRefreshed copy, .go => c.active = some copy.login
  | .storeExpired copy login, .go => c.active = some copy.login ∧ copy.login = login
  | .storeEnabled copy, .go =>
    c.active = some copy.login ∧ ∀ g ∈ copy.refresh, c.stored copy.login ≤ g
  | _, _ => True

instance (c : Cells) (k : Task) (a : Answer) : Decidable (ActsAlone c k a) := by
  unfold ActsAlone
  split <;> infer_instance

theorem Sound.storeSession {s : Session} (h : Sound c) (ha : c.active = some s.login)
    (hl : s.login < c.logins) (hg : ∀ g, s.refresh = some g → c.stored s.login ≤ g) :
    Sound (c.storeSession s) where
  active t ht := Option.some.inj ht ▸ ha
  known t ht := Option.some.inj ht ▸ hl
  unspent t g ht hg' := by
    obtain rfl := Option.some.inj ht
    exact hg g hg'
  fresh := h.fresh

theorem Sound.mergeRoster {r : Roster} {next : Session → Task} (h : Sound c) :
    Sound (c.mergeRoster r next).1 := by
  unfold Cells.mergeRoster Cells.updateSession
  cases hr : c.record with
  | none => simpa [hr] using h
  | some s =>
    have hs : Sound (c.storeSession (setRoster r s)) :=
      h.storeSession (h.active s hr) (h.known s hr) (fun g hg => h.unspent s g hr hg)
    exact ⟨hs.active, hs.known, hs.unspent, hs.fresh⟩

theorem Sound.signIn {account : ℕ} {r : Roster} (h : Sound c) : Sound (c.signIn account r) where
  active s hs := Option.some.inj hs ▸ rfl
  known s hs := Option.some.inj hs ▸ Nat.lt_succ_self _
  unspent s g hs hg := by
    obtain rfl := Option.some.inj hs
    exact Nat.le_trans (Nat.le_of_eq (h.fresh c.logins (Nat.le_refl _))) (Nat.zero_le g)
  fresh l hl := h.fresh l (Nat.le_of_succ_le hl)

theorem Sound.storeRefreshed {copy : Session} {g : ℕ} (h : Sound c)
    (ha : c.active = some copy.login) (hl : copy.login < c.logins) (hg : copy.refresh = some g)
    (hs : c.stored copy.login ≤ g) : Sound (c.storeRefreshed copy) where
  active s hs := Option.some.inj hs ▸ ha
  known s hs := Option.some.inj hs ▸ hl
  unspent s g' hs' hg' := by
    obtain rfl := Option.some.inj hs'
    obtain rfl : g = g' := Option.some.inj (hg.symm.trans hg')
    simpa [Cells.storeRefreshed, hg, Nat.max_le] using hs
  fresh l hl' := by
    have hne : l ≠ copy.login := by
      rintro rfl
      exact absurd hl (Nat.not_lt.mpr hl')
    simpa [Cells.storeRefreshed, hne] using h.fresh l hl'

/-- What one step of a task does to the cells, and which tasks it leaves. -/
structure Acts (c d : Cells) (k : Task) (ks : List Task) : Prop where
  sound : Sound d
  logins : c.logins ≤ d.logins
  stored : (∀ copy, k ≠ .storeRefreshed copy) → d.stored = c.stored
  tasks : ∀ k' ∈ ks, TaskOk d k'
  refreshes : ks.countP Task.isRefresh ≤ if k.isRefresh then 1 else 0
  last : ∀ copy, k = .storeRefreshed copy → ks = []

theorem acts_of_same {k : Task} {ks : List Task} (hs : Sound d) (hl : c.logins ≤ d.logins)
    (hst : d.stored = c.stored) (hks : ∀ k' ∈ ks, TaskOk d k' ∧ k'.isRefresh = false)
    (hk : ∀ copy, k ≠ .storeRefreshed copy) : Acts c d k ks where
  sound := hs
  logins := hl
  stored _ := hst
  tasks k' hk' := (hks k' hk').1
  refreshes := by
    rw [List.countP_eq_zero.mpr (fun k' hk' => by simp [(hks k' hk').2])]
    exact Nat.zero_le _
  last copy he := absurd he (hk copy)

theorem acts_of_done {k : Task} (h : Sound c) : Acts c c k [] :=
  ⟨h, Nat.le_refl _, fun _ => rfl, (fun _ h => by cases h), Nat.zero_le _, fun _ _ => rfl⟩

theorem acts_of_next {k k' : Task} (hs : Sound d) (hl : c.logins ≤ d.logins)
    (hst : d.stored = c.stored) (hok : TaskOk d k') (hr : k'.isRefresh = false)
    (hk : ∀ copy, k ≠ .storeRefreshed copy) : Acts c d k [k'] := by
  refine acts_of_same hs hl hst ?_ hk
  intro k'' hk''
  obtain rfl := List.mem_singleton.mp hk''
  exact ⟨hok, hr⟩

theorem acts_mergeRoster {k : Task} {r : Roster} {next : Session → Task} (h : Sound c)
    (hk : ∀ copy, k ≠ .storeRefreshed copy)
    (hnext : ∀ s, TaskOk c (next s) ∧ (next s).isRefresh = false)
    (hc : ∀ d s, TaskOk c (next s) → TaskOk d (next s)) :
    Acts c (c.mergeRoster r next).1 k (c.mergeRoster r next).2 := by
  have hs : Sound (c.mergeRoster r next).1 := h.mergeRoster
  unfold Cells.mergeRoster Cells.updateSession at hs ⊢
  cases hr : c.record with
  | none => exact acts_of_done h
  | some s =>
    simp only [hr, Option.map_some] at hs ⊢
    exact acts_of_next hs (Nat.le_refl _) rfl (hc _ _ (hnext _).1) (hnext _).2 hk

theorem persistAccountAnchor_sound (s : Session) (h : Sound c) :
    Sound (c.persistAccountAnchor s) :=
  ⟨h.active, h.known, h.unspent, h.fresh⟩

theorem rotated_acts {copy : Session} {token : ℕ} {drain : Bool} (h : Sound c)
    (hk : TaskOk c (.refresh copy token drain)) :
    Acts c { c with current := Function.update c.current copy.login (token + 1) }
      (.refresh copy token drain)
      [.storeRefreshed { copy with refresh := some (token + 1) }] where
  sound := ⟨h.active, h.known, h.unspent, h.fresh⟩
  logins := Nat.le_refl _
  stored _ := rfl
  tasks k' hk' := by
    obtain rfl := List.mem_singleton.mp hk'
    exact ⟨hk.1, token + 1, rfl, Nat.le_succ_of_le hk.2⟩
  refreshes := Nat.le_refl _
  last copy he := Task.noConfusion he

theorem storeRefreshed_acts {copy : Session} (h : Sound c)
    (hk : TaskOk c (.storeRefreshed copy)) (hg : c.active = some copy.login) :
    Acts c (c.storeRefreshed copy) (.storeRefreshed copy) [] := by
  obtain ⟨hl, g, hrefresh, hs⟩ := hk
  exact ⟨h.storeRefreshed hg hl hrefresh hs, Nat.le_refl _, fun hne => absurd rfl (hne copy),
    (fun _ h => by cases h), Nat.zero_le _, fun _ _ => rfl⟩

theorem act_acts {k : Task} {a : Answer} {ks : List Task} (h : Sound c) (hk : TaskOk c k)
    (hg : ActsAlone c k a) (ht : c.act k a = some (d, ks)) : Acts c d k ks := by
  unfold Cells.act at ht
  split at ht
  · split at ht
    · obtain ⟨rfl, rfl⟩ := Prod.mk.inj (Option.some.inj ht)
      exact rotated_acts h hk
    · cases ht
  · obtain ⟨rfl, rfl⟩ := Prod.mk.inj (Option.some.inj ht)
    refine acts_of_same h (Nat.le_refl _) rfl ?_ (fun _ h => by cases h)
    intro k' hk'
    split at hk'
    · obtain rfl := List.mem_singleton.mp hk'
      exact ⟨trivial, rfl⟩
    · exact absurd hk' List.not_mem_nil
  · obtain ⟨rfl, rfl⟩ := Prod.mk.inj (Option.some.inj ht)
    exact storeRefreshed_acts h hk hg
  · split at ht
    · obtain ⟨rfl, rfl⟩ := Prod.mk.inj (Option.some.inj ht)
      exact acts_of_done h
    · rename_i s hr
      obtain ⟨rfl, rfl⟩ := Prod.mk.inj (Option.some.inj ht)
      exact acts_of_next h (Nat.le_refl _) rfl ⟨h.known s hr, rfl⟩ rfl (fun _ h => by cases h)
  · obtain ⟨rfl, rfl⟩ := Prod.mk.inj (Option.some.inj ht)
    refine acts_of_same (h.storeSession hg.1 hk.1 ?_) (Nat.le_refl _) rfl (fun _ h => by cases h) (fun _ h => by cases h)
    intro g hrefresh
    exact absurd (hk.2.symm.trans hrefresh) (by rintro ⟨⟩)
  · obtain ⟨rfl, rfl⟩ := Prod.mk.inj (Option.some.inj ht)
    exact acts_of_next (h.storeSession hg.1 hk hg.2) (Nat.le_refl _) rfl trivial rfl (fun _ h => by cases h)
  · split at ht
    · obtain ⟨rfl, rfl⟩ := Prod.mk.inj (Option.some.inj ht)
      exact acts_of_next h (Nat.le_refl _) rfl trivial rfl (fun _ h => by cases h)
    · obtain ⟨rfl, rfl⟩ := Prod.mk.inj (Option.some.inj ht)
      exact acts_of_done h
  · obtain ⟨rfl, rfl⟩ := Prod.mk.inj (Option.some.inj ht)
    exact acts_mergeRoster h (fun _ h => by cases h) (fun _ => ⟨trivial, rfl⟩) (fun _ _ _ => trivial)
  · obtain ⟨rfl, rfl⟩ := Prod.mk.inj (Option.some.inj ht)
    exact acts_of_next (persistAccountAnchor_sound _ h) (Nat.le_refl _) rfl trivial rfl (fun _ h => by cases h)
  · obtain ⟨rfl, rfl⟩ := Prod.mk.inj (Option.some.inj ht)
    exact acts_of_next h (Nat.le_refl _) rfl trivial rfl (fun _ h => by cases h)
  · obtain ⟨rfl, rfl⟩ := Prod.mk.inj (Option.some.inj ht)
    split
    · exact acts_of_next h (Nat.le_refl _) rfl trivial rfl (fun _ h => by cases h)
    · exact acts_of_done h
  · obtain ⟨rfl, rfl⟩ := Prod.mk.inj (Option.some.inj ht)
    exact acts_mergeRoster h (fun _ h => by cases h) (fun _ => ⟨trivial, rfl⟩) (fun _ _ _ => trivial)
  · obtain ⟨rfl, rfl⟩ := Prod.mk.inj (Option.some.inj ht)
    exact acts_of_same (persistAccountAnchor_sound _ h) (Nat.le_refl _) rfl (fun _ h => by cases h) (fun _ h => by cases h)
  · split at ht
    · obtain ⟨rfl, rfl⟩ := Prod.mk.inj (Option.some.inj ht)
      exact acts_of_next h (Nat.le_refl _) rfl trivial rfl (fun _ h => by cases h)
    · obtain ⟨rfl, rfl⟩ := Prod.mk.inj (Option.some.inj ht)
      exact acts_of_done h
  · obtain ⟨rfl, rfl⟩ := Prod.mk.inj (Option.some.inj ht)
    exact acts_of_next h (Nat.le_refl _) rfl trivial rfl (fun _ h => by cases h)
  · split at ht
    · obtain ⟨rfl, rfl⟩ := Prod.mk.inj (Option.some.inj ht)
      exact acts_of_next h (Nat.le_refl _) rfl trivial rfl (fun _ h => by cases h)
    · obtain ⟨rfl, rfl⟩ := Prod.mk.inj (Option.some.inj ht)
      exact acts_of_done h
  · obtain ⟨rfl, rfl⟩ := Prod.mk.inj (Option.some.inj ht)
    exact acts_of_next h.signIn (Nat.le_succ _) rfl trivial rfl (fun _ h => by cases h)
  · obtain ⟨rfl, rfl⟩ := Prod.mk.inj (Option.some.inj ht)
    split
    · exact acts_of_next (persistAccountAnchor_sound _ h) (Nat.le_refl _) rfl trivial rfl (fun _ h => by cases h)
    · exact acts_of_same (persistAccountAnchor_sound _ h) (Nat.le_refl _) rfl (fun _ h => by cases h) (fun _ h => by cases h)
  · obtain ⟨rfl, rfl⟩ := Prod.mk.inj (Option.some.inj ht)
    exact acts_of_done h
  · cases ht

end Cells

namespace State

open Cells

/-- The condition, event by event: no second refresh starts while one is in flight, and every
write-back of a whole record finds the sign-in and the token it was read from. -/
def Serial (s : State) (e : Event) (_ : State) : Prop :=
  match e with
  | .refreshAccessToken _ => ∀ k ∈ s.tasks, k.isRefresh = false
  | .act k a => ActsAlone s.toCells k a
  | _ => True

instance (s : State) (e : Event) (t : State) : Decidable (Serial s e t) := by
  unfold Serial
  split <;> infer_instance

structure Inv (s : State) : Prop where
  sound : Sound s.toCells
  tasks : ∀ k ∈ s.tasks, TaskOk s.toCells k
  refreshes : s.tasks.countP Task.isRefresh ≤ 1

/-- What the device may never do with its session record. -/
structure TokenSafe (s : State) (e : Event) (t : State) : Prop where
  held : ∀ r g, t.record = some r → r.refresh = some g → t.stored r.login ≤ g
  presented : ∀ copy token drain a, e = .act (.refresh copy token drain) a →
    s.stored copy.login ≤ token
  signedOut : ∀ r, t.record = some r → t.active = some r.login
  expiry : ∀ copy login a, e = .act (.storeExpired copy login) a →
    ∀ r, s.record = some r → r.login ≠ login → t.record = some r

variable {s t : State}

theorem Inv.spawn {ks : List Task} (h : Inv s) (hks : ∀ k ∈ ks, TaskOk s.toCells k)
    (hr : ks.countP Task.isRefresh + s.tasks.countP Task.isRefresh ≤ 1) : Inv (s.spawn ks) where
  sound := h.sound
  tasks k hk := (List.mem_append.mp hk).elim (hks k) (h.tasks k)
  refreshes := by
    rw [State.spawn, List.countP_append]
    exact hr

theorem Inv.spawn_quiet {ks : List Task} (h : Inv s)
    (hks : ∀ k ∈ ks, TaskOk s.toCells k ∧ k.isRefresh = false) : Inv (s.spawn ks) := by
  refine h.spawn (fun k hk => (hks k hk).1) ?_
  rw [List.countP_eq_zero.mpr (fun k hk => by simp [(hks k hk).2]), Nat.zero_add]
  exact h.refreshes

theorem refreshTask_ok {r : Session} (drain : Bool) (h : Sound s.toCells)
    (hr : s.record = some r) : (∀ k ∈ refreshTask r drain, TaskOk s.toCells k) ∧
      (refreshTask r drain).countP Task.isRefresh ≤ 1 := by
  unfold refreshTask
  cases hg : r.refresh with
  | none => cases drain <;> simp [TaskOk, Task.isRefresh]
  | some g =>
    refine ⟨fun k hk => ?_, Nat.le_refl _⟩
    obtain rfl := List.mem_singleton.mp hk
    exact ⟨h.known r hr, h.unspent r g hr hg⟩

theorem refreshAccessToken_inv {drain : Bool} (h : Inv s)
    (hg : ∀ k ∈ s.tasks, k.isRefresh = false) :
    Inv (s.spawn (s.record.toList.flatMap (fun copy => refreshTask copy drain))) := by
  have hnone : s.tasks.countP Task.isRefresh = 0 :=
    List.countP_eq_zero.mpr (fun k hk => by simp [hg k hk])
  cases hr : s.record with
  | none => exact h.spawn_quiet (fun _ h => by cases h)
  | some r =>
    obtain ⟨hok, hcount⟩ := refreshTask_ok drain h.sound hr
    apply h.spawn
    · simpa using hok
    · simpa [hnone] using hcount

theorem act_inv {k : Task} {a : Answer} (h : Inv s) (hg : ActsAlone s.toCells k a)
    (ht : step s (.act k a) = some t) : Inv t := by
  simp only [step] at ht
  split at ht
  · rename_i hk
    obtain ⟨⟨d, ks⟩, hact, rfl⟩ := Option.map_eq_some_iff.mp ht
    have hacts := act_acts h.sound (h.tasks k hk) hg hact
    have hcount := (List.perm_cons_erase hk).countP_eq Task.isRefresh
    rw [List.countP_cons] at hcount
    have hrefreshes := h.refreshes
    refine ⟨hacts.sound, ?_, ?_⟩
    · intro k' hk'
      rcases List.mem_append.mp hk' with hnew | hold
      · exact hacts.tasks k' hnew
      · refine (h.tasks k' (List.mem_of_mem_erase hold)).mono hacts.logins (fun hr => ?_)
        apply hacts.stored
        rintro copy rfl
        have hpos : 0 < (s.tasks.erase (.storeRefreshed copy)).countP Task.isRefresh :=
          List.countP_pos_iff.mpr ⟨k', hold, hr⟩
        simp only [Task.isRefresh, if_true] at hcount
        omega
    · have hnew := hacts.refreshes
      simp only [List.countP_append]
      omega
  · cases ht

theorem step_inv {e : Event} (h : Inv s) (hg : Serial s e t) (ht : step s e = some t) :
    Inv t := by
  cases e with
  | refreshAccessToken drain => exact Option.some.inj ht ▸ refreshAccessToken_inv h hg
  | enable =>
    obtain rfl := Option.some.inj ht
    apply h.spawn_quiet
    intro k hk
    obtain ⟨r, hr, rfl⟩ := List.mem_map.mp hk
    exact ⟨h.sound.known r (by simpa using hr), rfl⟩
  | changeRoster =>
    obtain rfl := Option.some.inj ht
    apply h.spawn_quiet
    intro k hk
    obtain ⟨r, -, rfl⟩ := List.mem_map.mp hk
    exact ⟨trivial, rfl⟩
  | login account =>
    obtain rfl := Option.some.inj ht
    apply h.spawn_quiet
    intro k hk
    obtain rfl := List.mem_singleton.mp hk
    exact ⟨trivial, rfl⟩
  | recover account =>
    obtain rfl := Option.some.inj ht
    apply h.spawn_quiet
    intro k hk
    obtain rfl := List.mem_singleton.mp hk
    exact ⟨trivial, rfl⟩
  | disable =>
    obtain rfl := Option.some.inj ht
    cases hr : s.record with
    | none => exact ⟨⟨(by simp), (by simp), (by simp), h.sound.fresh⟩, h.tasks, h.refreshes⟩
    | some r =>
      have hs := h.sound.storeSession (s := { r with syncEnabled := false })
        (h.sound.active r hr) (h.sound.known r hr) (fun g hg => h.sound.unspent r g hr hg)
      exact ⟨hs, h.tasks, h.refreshes⟩
  | signOut =>
    obtain rfl := Option.some.inj ht
    exact ⟨⟨fun _ h => (by cases h), fun _ h => (by cases h), fun _ _ h => (by cases h),
      h.sound.fresh⟩, h.tasks, h.refreshes⟩
  | forgetAccount account =>
    obtain rfl := Option.some.inj ht
    exact ⟨⟨h.sound.active, h.sound.known, h.sound.unspent, h.sound.fresh⟩, h.tasks,
      h.refreshes⟩
  | act k a => exact act_inv h hg ht

theorem expiry_spares_later {copy : Session} {login : ℕ} {a : Answer} {r : Session}
    (h : Inv s) (hg : ActsAlone s.toCells (.storeExpired copy login) a)
    (ht : step s (.act (.storeExpired copy login) a) = some t) (hr : s.record = some r)
    (hne : r.login ≠ login) : t.record = some r := by
  simp only [step] at ht
  split at ht
  · obtain ⟨⟨d, ks⟩, hact, rfl⟩ := Option.map_eq_some_iff.mp ht
    cases a with
    | go =>
      obtain ⟨hactive, hlogin⟩ := hg
      have hsame := Option.some.inj ((h.sound.active r hr).symm.trans hactive)
      exact absurd (hsame.trans hlogin) hne
    | failed =>
      obtain ⟨rfl, rfl⟩ := Prod.mk.inj (Option.some.inj hact)
      exact hr
    | _ => cases hact
  · cases ht

theorem step_tokenSafe {e : Event} (h : Inv s) (hg : Serial s e t) (ht : step s e = some t) :
    TokenSafe s e t where
  held r g hr hg' := (step_inv h hg ht).sound.unspent r g hr hg'
  presented copy token drain a he := by
    subst he
    simp only [step] at ht
    split at ht
    · rename_i hk
      exact (h.tasks (.refresh copy token drain) hk).2
    · cases ht
  signedOut r hr := (step_inv h hg ht).sound.active r hr
  expiry copy login a he r hr hne := by
    subst he
    exact expiry_spares_later h hg ht hr hne

/-- A device on which nobody has signed in yet. -/
def fresh : State where
  record := none
  anchors _ := none
  current _ := 0
  logins := 0
  active := none
  stored _ := 0
  forgotten _ := false
  tasks := []

theorem fresh_sound : Sound fresh.toCells :=
  ⟨fun _ h => (by cases h), fun _ h => (by cases h), fun _ _ h => (by cases h), fun _ _ => rfl⟩

def firstRoster : Roster := ⟨0, 0⟩

/-- The session of the sign-in numbered `login`, after `token` rotations. -/
def session (login token : ℕ) : Session := ⟨0, login, some token, false, 0, some 0⟩

def signInAs (login : ℕ) : List Event :=
  [.login 0, .act (.login 0 (if login = 0 then -1 else 0)) (.signed firstRoster),
    .act (.storeSignedIn 0 (if login = 0 then -1 else 0) firstRoster false) .go,
    .act (.anchorSignedIn (session login 0) firstRoster false) .go]

def refreshOnce (login token : ℕ) : List Event :=
  [.refreshAccessToken true, .act (.refresh (session login token) token true) .rotated,
    .act (.storeRefreshed (session login (token + 1))) .go]

/-- A sign-in, two refreshes, a sign-out and another sign-in. -/
def orderlyDay : List Event :=
  signInAs 0 ++ refreshOnce 0 0 ++ refreshOnce 0 1 ++ [.signOut] ++ signInAs 1 ++ refreshOnce 1 0

/-- Enabling reads the session, the drain refreshes, and enabling stores what it read. -/
def enableOverRefresh : List Event :=
  signInAs 0 ++ [.enable] ++ refreshOnce 0 0 ++ [.act (.storeEnabled (session 0 0)) .go]

/-- A refresh in flight during a sign-out stores the session again. -/
example : ∃ u, exec step fresh
      (signInAs 0 ++ [.refreshAccessToken false,
        .act (.refresh (session 0 0) 0 false) .rotated, .signOut,
        .act (.storeRefreshed (session 0 1)) .go]) = some u ∧
    u.active = none ∧ u.record = some (session 0 1) :=
  exec_evaluates (by decide +kernel)

/-- The expiry of an older session strips the one of a later sign-in. -/
example : ∃ u, exec step fresh
      (signInAs 0 ++ [.refreshAccessToken true, .act (.refresh (session 0 0) 0 true) .rejected] ++
        signInAs 1 ++ [.act (.expire 0) .go,
          .act (.storeExpired { session 1 0 with refresh := none } 0) .go]) = some u ∧
    u.active = some 1 ∧ u.record = some { session 1 0 with refresh := none } :=
  exec_evaluates (by decide +kernel)

end State

end YapStack.Credentials
