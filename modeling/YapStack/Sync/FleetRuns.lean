import Mathlib.Data.Fintype.Basic
import YapStack.Sync.Fleet

set_option linter.unusedSectionVars false

namespace YapStack.Sync.Crr.Fleet

variable {Device Key Column V : Type}
variable [DecidableEq Device] [DecidableEq Key] [DecidableEq Column] [LinearOrder V]
variable {schema : Schema Column V} {m m' : Fleet Device Key Column V} {d : Device}
  {S : Change Key Column V → Prop} {n : Node Key Column V} {k : Key}

theorem set_set (m : Fleet Device Key Column V) (d : Device) (n n' : Node Key Column V) :
    (m.set d n).set d n' = m.set d n' := by
  rw [set, set, set, Function.update_idem]

theorem put_put (m : Fleet Device Key Column V) (d : Device) (s t : Store Key Column V) :
    (m.put d s).put d t = m.put d t := by
  rw [put, put, put, node_set, if_pos rfl, set_set]

theorem node_put (m : Fleet Device Key Column V) (d : Device) (s : Store Key Column V) :
    (m.put d s).node d = { m.node d with store := s } := by
  rw [put, node_set, if_pos rfl]

theorem sent_put {s : Store Key Column V} {c : Change Key Column V} :
    (m.put d s).Sent c ↔ m.Sent c := sent_set rfl

theorem put_self (m : Fleet Device Key Column V) (d : Device) : m.put d (m.node d).store = m := by
  rw [put, set, Function.update_eq_self]

/-- A transaction that began at `first` gives clock rows that no capture has read. -/
structure Begun (n : Node Key Column V) (first : ℕ) : Prop where
  watermark : n.watermark < first
  upto : ∀ a, n.attempt = some a → a.upto < first

theorem NodeSound.begun {first : ℕ} (h : NodeSound schema S n) (hfirst : n.store.version < first) :
    Begun n first :=
  ⟨lt_of_le_of_lt h.watermark hfirst, fun a ha => lt_of_le_of_lt (h.upto a ha).2 hfirst⟩

theorem sound_put {s : Store Key Column V} (h : (m.put d s).Sound schema) {first v : ℕ}
    (hbegun : Begun (m.node d) first) (hfirst : first ≤ v) (hversion : s.version ≤ v)
    {r : Row Column V} {f : Clocks Column}
    (ht : Turned schema m.Sent k (m.node d).watermark v (s.row k) (s.clock k) r f)
    (hown : ∀ x v', f x = .own v' → v' = v ∨ s.clock k x = .own v') :
    (m.put d (s.turn k r f v)).Sound schema := by
  have hnode := node_put m d s
  have hsent : (m.put d s).Sent = m.Sent := by
    funext c
    exact propext sent_put
  have hturn : Turning schema (m.put d s) d k v r f
      { (m.put d s).node d with store := ((m.put d s).node d).store.turn k r f v } := by
    refine ⟨Store.row_turn _ k r f v, Store.clock_turn _ k r f v, rfl, rfl, rfl, rfl, rfl, ?_, ?_,
      ?_, ?_, ?_⟩
    · rw [hnode, hsent]
      exact ht
    · rw [hnode]
      exact hown
    · rw [hnode]
      exact lt_of_lt_of_le hbegun.watermark hfirst
    · rw [hnode]
      exact hversion
    · rw [hnode]
      exact fun a ha => lt_of_lt_of_le (hbegun.upto a ha) hfirst
  have hsound : ((m.put d s).put d (((m.put d s).node d).store.turn k r f v)).Sound schema :=
    hturn.sound h
  rwa [put_put, hnode] at hsound

theorem settled_put {s : Store Key Column V} (h : (m.put d s).Sound schema) (k : Key) :
    (s.row k).Settled schema := by
  have hsettled := (h.nodes d).settled k
  rwa [node_put] at hsettled

theorem sound_write {first : ℕ} {s t : Store Key Column V} {w : LocalWrite Key Column V}
    (hbegun : Begun (m.node d) first) (h : (m.put d s).Sound schema ∧ s.version ≤ first)
    (hw : s.write schema first w = some t) : (m.put d t).Sound schema ∧ t.version ≤ first := by
  obtain ⟨h, hversion⟩ := h
  cases w with
  | insert k values =>
    rw [Store.write] at hw
    split at hw
    · rename_i hnone
      obtain rfl := Option.some.inj hw
      have ht : Turned schema m.Sent k (m.node d).watermark first (s.row k) (s.clock k) _ _ :=
        turned_insert (settled_put h k) (Option.isNone_iff_eq_none.mp hnone) values
          hbegun.watermark
      exact ⟨sound_put h hbegun (le_refl _) hversion ht fun x v' hx => insertClocks_own hx,
        le_refl _⟩
    · cases hw
  | update k col value =>
    rw [Store.write] at hw
    split at hw
    · cases hw
    · rename_i cells hcells
      split at hw
      · obtain rfl := Option.some.inj hw
        exact ⟨h, hversion⟩
      · rename_i hne
        obtain rfl := Option.some.inj hw
        have ht : Turned schema m.Sent k (m.node d).watermark first (s.row k) (s.clock k) _ _ :=
          turned_update (settled_put h k) hcells hne hbegun.watermark
        exact ⟨sound_put h hbegun (le_refl _) hversion ht fun x v' hx => updateClocks_own hx,
          le_refl _⟩
  | delete k =>
    rw [Store.write] at hw
    split at hw
    · rename_i hsome
      obtain rfl := Option.some.inj hw
      obtain ⟨cells, hcells⟩ := Option.isSome_iff_exists.mp hsome
      have ht : Turned schema m.Sent k (m.node d).watermark first (s.row k) (s.clock k) _ _ :=
        turned_delete (settled_put h k) hcells hbegun.watermark
      exact ⟨sound_put h hbegun (le_refl _) hversion ht fun x v' hx => .inl (deleteClocks_own hx),
        le_refl _⟩
    · cases hw

theorem sound_mergeChange {first : ℕ} {s : Store Key Column V} {x : Versioned Key Column V}
    (hbegun : Begun (m.node d) first) (h : (m.put d s).Sound schema) (hx : m.Sent x.1) :
    (m.put d (s.mergeChange schema first x)).Sound schema := by
  rw [Store.mergeChange]
  split
  · have hsent : (m.put d s).Sent x.1 := sent_put.mpr hx
    have hsettled : x.1.Settled schema := (h.held x.1 (.inl hsent)).1
    have ht : Turned schema m.Sent x.1.key (m.node d).watermark (max (max first s.version) x.2)
        (s.row x.1.key) (s.clock x.1.key) _ _ := turned_merge (settled_put h x.1.key) hsettled hx
    exact sound_put h hbegun ((le_max_left _ _).trans (le_max_left _ _))
      ((le_max_right _ _).trans (le_max_left _ _)) ht fun y v' hy => mergeClocks_own hy
  · exact h

theorem row_mergeChange (first : ℕ) (s : Store Key Column V) (x : Versioned Key Column V)
    (k : Key) : (s.mergeChange schema first x).row k =
      if k = x.1.key then mergeInsert (s.row k) x.1 schema.defaults else s.row k := by
  rw [Store.mergeChange]
  split
  · rw [Store.row_turn]
    split
    · rename_i hk
      rw [hk]
    · rfl
  · rename_i hloses
    split
    · rename_i hk
      rw [hk, mergeInsert_of_loses (by simpa using hloses)]
    · rfl

theorem le_mergeChange (first : ℕ) {s : Store Key Column V} (x : Versioned Key Column V)
    (h : ∀ k, (s.row k).Settled schema) :
    (∀ k, (s.row k).mark ≤ ((s.mergeChange schema first x).row k).mark) ∧
      x.1.mark ≤ ((s.mergeChange schema first x).row x.1.key).mark := by
  have hmerged : ∀ k, Merged schema.defaults (s.row k) x.1
      (mergeInsert (s.row k) x.1 schema.defaults) := fun k => mergeInsert_merged (h k).wellFormed
  refine ⟨fun k => ?_, ?_⟩
  · rw [row_mergeChange]
    split
    · exact (hmerged k).row_le
    · exact le_refl _
  · rw [row_mergeChange, if_pos rfl]
    exact (hmerged x.1.key).change_le

theorem sound_mergeAll {first : ℕ} {rows : List (Versioned Key Column V)}
    {s : Store Key Column V} (hbegun : Begun (m.node d) first) (h : (m.put d s).Sound schema)
    (hrows : ∀ x ∈ rows, m.Sent x.1) :
    (m.put d (s.mergeAll schema first rows)).Sound schema ∧
      (∀ k, (s.row k).mark ≤ ((s.mergeAll schema first rows).row k).mark) ∧
      ∀ x ∈ rows, x.1.mark ≤ ((s.mergeAll schema first rows).row x.1.key).mark := by
  induction rows generalizing s with
  | nil => exact ⟨h, fun _ => le_refl _, fun x hx => (by cases hx)⟩
  | cons x rows ih =>
    obtain ⟨hle, hchange⟩ := le_mergeChange first x (settled_put h)
    have hsound := sound_mergeChange hbegun h (hrows x List.mem_cons_self)
    obtain ⟨hall, hgrow, hmerged⟩ := ih hsound fun y hy => hrows y (List.mem_cons_of_mem x hy)
    refine ⟨hall, fun k => (hle k).trans (hgrow k), fun y hy => ?_⟩
    obtain rfl | hy := List.mem_cons.mp hy
    · exact hchange.trans (hgrow y.1.key)
    · exact hmerged y hy

/-- A step that leaves every store as it was. -/
theorem sound_kept (h : m.Sound schema)
    (hstore : ∀ e, (m'.node e).store = (m.node e).store)
    (hsource : ∀ c, m.Source schema c → m'.Source schema c)
    (hheld : ∀ c, m'.Sent c ∨ m'.Planned c → (m.Sent c ∨ m.Planned c) ∨
      ∃ e k, c ∈ changesOf schema.columns k ((m.node e).store.row k))
    (hnodes : ∀ e, NodeSound schema m'.Sent (m'.node e))
    (hcursor : ∀ e, (m'.node e).cursor ≤ m'.relay.length)
    (habsorbed : ∀ e, ∀ entry ∈ m'.relay.take (m'.node e).cursor, ∀ r ∈ entry,
      r.1.mark ≤ ((m.node e).store.row r.1.key).mark) : m'.Sound schema := by
  have hcovers : Covers (m.Source schema) (m'.Source schema) := covers_of_imp hsource
  refine ⟨hnodes, fun c hc => ?_, fun e k hodd => ?_, fun e k c hc => ?_, hcursor, fun e => ?_⟩
  · obtain hc | ⟨e, k, hc⟩ := hheld c hc
    · exact ⟨(h.held c hc).1, fun hodd => ((h.held c hc).2 hodd).covered hodd hcovers⟩
    · obtain ⟨hsettled, rfl⟩ := settled_of_mem hc
      refine ⟨hsettled, fun hodd => ?_⟩
      rw [cl_of_mem hc] at hodd ⊢
      exact (h.founded e c.key hodd).covered hodd hcovers
  · rw [hstore] at hodd ⊢
    exact (h.founded e k hodd).covered hodd hcovers
  · rw [hstore] at hc
    obtain hzero | ⟨c', hc', hkey, hle⟩ := h.shown e k c hc
    · exact .inl hzero
    · exact .inr ⟨c', hsource c' hc', hkey, hle⟩
  · rw [hstore]
    exact habsorbed e

/-- A step of one device that leaves its store, its outbox, its watermark and its cursor. -/
theorem sound_attempt (h : m.Sound schema) {a : Option (Attempt Key Column V)}
    (hn : NodeSound schema m.Sent { m.node d with attempt := a })
    (ha : ∀ a', a = some a' → ∀ r ∈ a'.rows,
      ∃ k, r.1 ∈ changesOf schema.columns k ((m.node d).store.row k)) :
    (m.set d { m.node d with attempt := a }).Sound schema := by
  have hfields : ∀ e, ((m.set d { m.node d with attempt := a }).node e).store = (m.node e).store ∧
      ((m.set d { m.node d with attempt := a }).node e).watermark = (m.node e).watermark ∧
      ((m.set d { m.node d with attempt := a }).node e).cursor = (m.node e).cursor := by
    intro e
    rw [node_set]
    split
    · rename_i he
      rw [he]
      exact ⟨rfl, rfl, rfl⟩
    · exact ⟨rfl, rfl, rfl⟩
  have hsent : ∀ c, (m.set d { m.node d with attempt := a }).Sent c ↔ m.Sent c :=
    fun c => sent_set rfl
  apply sound_kept h
  · exact fun e => (hfields e).1
  · intro c hc
    obtain hc | ⟨e, hc⟩ := hc
    · exact .inl ((hsent c).mpr hc)
    · refine .inr ⟨e, ?_⟩
      rw [Owed, (hfields e).1, (hfields e).2.1]
      exact hc
  · intro c hc
    obtain hc | ⟨e, a', ha', r, hr, rfl⟩ := hc
    · exact .inl (.inl ((hsent c).mp hc))
    · rw [node_set] at ha'
      split at ha'
      · exact .inr ⟨d, ha a' ha' r hr⟩
      · exact .inl (.inr ⟨e, a', ha', r, hr, rfl⟩)
  · intro e
    rw [node_set]
    split
    · exact hn.mono fun c hc => (hsent c).mpr hc
    · exact (h.nodes e).mono fun c hc => (hsent c).mpr hc
  · intro e
    rw [(hfields e).2.2]
    exact h.cursor e
  · intro e
    rw [(hfields e).2.2]
    exact h.absorbed e

theorem sound_read (h : m.Sound schema) {rows : List (Versioned Key Column V)}
    (hr : Reads schema (m.node d) rows) :
    (m.set d { m.node d with attempt := some ⟨rows, (m.node d).store.version⟩ }).Sound schema := by
  have hn := h.nodes d
  obtain ⟨hsorted, howed, hall⟩ := hr
  apply sound_attempt h
  · refine ⟨hn.settled, hn.version, hn.watermark, fun a ha => ?_, fun a ha => ?_, fun a ha r hr => ?_,
      fun a ha k c hc v hv hlt _ => .inl ?_⟩
    · obtain rfl := Option.some.inj ha
      exact ⟨hn.watermark, le_refl _⟩
    · obtain rfl := Option.some.inj ha
      exact hsorted
    · obtain rfl := Option.some.inj ha
      exact hn.version r.1.key r.1.clock r.2 (Store.mem_owed.mp (howed r hr)).2.1
    · obtain rfl := Option.some.inj ha
      exact hall k (Store.shown_known hc) (c, v) (Store.mem_owed.mpr ⟨hc, hv, hlt⟩)
  · intro a ha r hr
    obtain rfl := Option.some.inj ha
    exact ⟨r.1.key, (Store.mem_owed.mp (howed r hr)).1⟩

theorem sound_abandon (h : m.Sound schema) :
    (m.set d { m.node d with attempt := none }).Sound schema := by
  have hn := h.nodes d
  apply sound_attempt h
  · exact ⟨hn.settled, hn.version, hn.watermark, fun a ha => (by cases ha),
      fun a ha => (by cases ha), fun a ha => (by cases ha), fun a ha => (by cases ha)⟩
  · intro a ha
    cases ha

theorem sound_push (h : m.Sound schema) {entry : List (Versioned Key Column V)}
    (hentry : entry ∈ (m.node d).outbox) :
    ({ m with relay := m.relay ++ [entry] } : Fleet Device Key Column V).Sound schema := by
  generalize hm : ({ m with relay := m.relay ++ [entry] } : Fleet Device Key Column V) = m'
  have hnode : m'.node = m.node := by rw [← hm]
  have hrelay : m'.relay = m.relay ++ [entry] := by rw [← hm]
  have hsent : ∀ c, m'.Sent c ↔ m.Sent c := by
    intro c
    simp only [Sent, hnode, hrelay, List.mem_append, List.mem_singleton]
    constructor
    · intro hc
      obtain ⟨e, he | rfl, hr⟩ | hc := hc
      · exact .inl ⟨e, he, hr⟩
      · exact .inr ⟨d, e, hentry, hr⟩
      · exact .inr hc
    · intro hc
      obtain ⟨e, he, hr⟩ | hc := hc
      · exact .inl ⟨e, .inl he, hr⟩
      · exact .inr hc
  apply sound_kept h
  · intro e
    rw [hnode]
  · intro c hc
    obtain hc | hc := hc
    · exact .inl ((hsent c).mpr hc)
    · refine .inr ?_
      rwa [hnode]
  · intro c hc
    refine .inl ?_
    rwa [hsent, Planned, hnode] at hc
  · intro e
    rw [hnode]
    exact (h.nodes e).mono fun c hc => (hsent c).mpr hc
  · intro e
    rw [hnode, hrelay, List.length_append]
    exact (h.cursor e).trans (Nat.le_add_right _ _)
  · intro e
    rw [hnode, hrelay, List.take_append_of_le_length (h.cursor e)]
    exact h.absorbed e

/-- A step of one device that leaves its store, its watermark, its attempt and its cursor. -/
theorem sound_ack (h : m.Sound schema) {i : ℕ} {entry : List (Versioned Key Column V)}
    (hi : (m.node d).outbox[i]? = some entry) (hentry : entry ∈ m.relay) :
    (m.set d { m.node d with outbox := (m.node d).outbox.eraseIdx i }).Sound schema := by
  generalize hnew : ({ m.node d with outbox := (m.node d).outbox.eraseIdx i } :
    Node Key Column V) = n
  have hn : n.store = (m.node d).store ∧ n.watermark = (m.node d).watermark ∧
      n.attempt = (m.node d).attempt ∧ n.cursor = (m.node d).cursor ∧
      n.outbox = (m.node d).outbox.eraseIdx i := by
    rw [← hnew]
    exact ⟨rfl, rfl, rfl, rfl, rfl⟩
  clear hnew
  obtain ⟨hs, hw, ha, hc, ho⟩ := hn
  have hfields : ∀ e, ((m.set d n).node e).store = (m.node e).store ∧
      ((m.set d n).node e).watermark = (m.node e).watermark ∧
      ((m.set d n).node e).attempt = (m.node e).attempt ∧
      ((m.set d n).node e).cursor = (m.node e).cursor := by
    intro e
    rw [node_set]
    split
    · rename_i he
      rw [he]
      exact ⟨hs, hw, ha, hc⟩
    · exact ⟨rfl, rfl, rfl, rfl⟩
  have hsent : ∀ c, (m.set d n).Sent c ↔ m.Sent c := by
    intro c
    constructor
    · intro hc
      obtain hc | ⟨e, x, hx, hr⟩ := hc
      · exact .inl hc
      · rw [node_set] at hx
        split at hx
        · rw [ho] at hx
          exact .inr ⟨d, x, List.mem_of_mem_eraseIdx hx, hr⟩
        · exact .inr ⟨e, x, hx, hr⟩
    · intro hc
      obtain hc | ⟨e, x, hx, hr⟩ := hc
      · exact .inl hc
      · by_cases he : e = d
        · subst he
          by_cases hxe : x = entry
          · exact .inl ⟨entry, hentry, hxe ▸ hr⟩
          · refine .inr ⟨e, x, ?_, hr⟩
            rw [node_set, if_pos rfl, ho]
            obtain ⟨j, hj⟩ := List.mem_iff_getElem?.mp hx
            refine List.mem_eraseIdx_iff_getElem?.mpr ⟨j, fun hji => hxe ?_, hj⟩
            rw [hji, hi] at hj
            exact (Option.some.inj hj).symm
        · refine .inr ⟨e, x, ?_, hr⟩
          rwa [node_set, if_neg he]
  apply sound_kept h
  · exact fun e => (hfields e).1
  · intro c hc
    obtain hc | ⟨e, hc⟩ := hc
    · exact .inl ((hsent c).mpr hc)
    · refine .inr ⟨e, ?_⟩
      rw [Owed, (hfields e).1, (hfields e).2.1]
      exact hc
  · intro c hc
    obtain hc | ⟨e, a', ha', r, hr, rfl⟩ := hc
    · exact .inl (.inl ((hsent c).mp hc))
    · rw [(hfields e).2.2.1] at ha'
      exact .inl (.inr ⟨e, a', ha', r, hr, rfl⟩)
  · intro e
    have hold := (h.nodes e).mono fun c hc => (hsent c).mpr hc
    obtain ⟨hs, hw, ha, -⟩ := hfields e
    exact ⟨hs ▸ hold.settled, hs ▸ hold.version, hs ▸ hw ▸ hold.watermark,
      ha ▸ hw ▸ hs ▸ hold.upto, ha ▸ hold.sorted, ha ▸ hold.below, ha ▸ hw ▸ hs ▸ hold.captured⟩
  · intro e
    rw [(hfields e).2.2.2]
    exact h.cursor e
  · intro e
    rw [(hfields e).2.2.2]
    exact h.absorbed e

/-- Where a chunk takes the watermark. -/
theorem committed_watermark (h : NodeSound schema S n) {a : Attempt Key Column V}
    (ha : n.attempt = some a) (count : ℕ) :
    n.watermark ≤ (commitChunk n a count).watermark ∧ (commitChunk n a count).watermark ≤ a.upto ∧
      ∀ r ∈ a.rows.drop count, n.watermark < (commitChunk n a count).watermark →
        (commitChunk n a count).watermark < r.2 := by
  have hmark : (commitChunk n a count).watermark =
      ((closedVersion (a.rows.take count) ((a.rows.drop count).head?.map Prod.snd)).filter
        fun v => decide (n.watermark < v)).getD n.watermark := rfl
  rw [hmark]
  have hsorted := h.sorted a ha
  rw [← List.take_append_drop count a.rows] at hsorted
  cases hclosed : (closedVersion (a.rows.take count)
      ((a.rows.drop count).head?.map Prod.snd)).filter fun v => decide (n.watermark < v) with
  | none => exact ⟨le_refl _, (h.upto a ha).1, fun r _ hlt => absurd hlt (lt_irrefl _)⟩
  | some v =>
    obtain ⟨hv, hlt⟩ := Option.filter_eq_some_iff.mp hclosed
    obtain ⟨⟨r, hr, rfl⟩, habove⟩ := closedVersion_spec hsorted hv
    exact ⟨(of_decide_eq_true hlt).le, h.below a ha r (List.mem_of_mem_take hr),
      fun x hx _ => habove x hx⟩

theorem sound_commit (h : m.Sound schema) {a : Attempt Key Column V}
    (ha : (m.node d).attempt = some a) (count : ℕ) :
    (m.set d (commitChunk (m.node d) a count)).Sound schema := by
  have hn := h.nodes d
  obtain ⟨hgrow, hupto, habove⟩ := committed_watermark hn ha count
  have hfields : (commitChunk (m.node d) a count).store = (m.node d).store ∧
      (commitChunk (m.node d) a count).cursor = (m.node d).cursor ∧
      (commitChunk (m.node d) a count).outbox = (m.node d).outbox ++ [a.rows.take count] ∧
      (commitChunk (m.node d) a count).attempt =
        if a.rows.drop count = [] then none else some { a with rows := a.rows.drop count } :=
    ⟨rfl, rfl, rfl, rfl⟩
  generalize commitChunk (m.node d) a count = n at *
  obtain ⟨hs, hcursor, ho, hattempt⟩ := hfields
  have hstore : ∀ e, ((m.set d n).node e).store = (m.node e).store ∧
      ((m.set d n).node e).cursor = (m.node e).cursor := by
    intro e
    rw [node_set]
    split
    · rename_i he
      rw [he]
      exact ⟨hs, hcursor⟩
    · exact ⟨rfl, rfl⟩
  have hchunk : ∀ r ∈ a.rows.take count, (m.set d n).Sent r.1 := by
    intro r hr
    refine .inr ⟨d, a.rows.take count, ?_, r, hr, rfl⟩
    rw [node_set, if_pos rfl, ho]
    exact List.mem_append_right _ (List.mem_singleton_self _)
  have hsent : ∀ c, m.Sent c → (m.set d n).Sent c := by
    intro c hc
    obtain hc | ⟨e, x, hx, hr⟩ := hc
    · exact .inl hc
    · refine .inr ⟨e, x, ?_, hr⟩
      rw [node_set]
      split
      · rename_i he
        subst he
        rw [ho]
        exact List.mem_append_left _ hx
      · exact hx
  have hplanned : ∀ r ∈ a.rows, m.Planned r.1 := fun r hr => ⟨d, a, ha, r, hr, rfl⟩
  have hrest : ∀ a', n.attempt = some a' →
      a'.rows = a.rows.drop count ∧ a'.upto = a.upto := by
    intro a' ha'
    rw [hattempt] at ha'
    split at ha'
    · cases ha'
    · obtain rfl := Option.some.inj ha'
      exact ⟨rfl, rfl⟩
  -- a change that was read is in the chunk, or in the rest
  have hread : ∀ k, ∀ c ∈ changesOf schema.columns k ((m.node d).store.row k), ∀ v,
      (m.node d).store.clock k c.clock = .own v → (m.node d).watermark < v → v ≤ a.upto →
      (c, v) ∈ a.rows.drop count ∨ (m.set d n).Sent c := by
    intro k c hc v hv hlt hle
    obtain hmem | hs := hn.captured a ha k c hc v hv hlt hle
    · rw [← List.take_append_drop count a.rows, List.mem_append] at hmem
      obtain hmem | hmem := hmem
      · exact .inr (hchunk _ hmem)
      · exact .inl hmem
    · exact .inr (hsent c hs)
  apply sound_kept h
  · exact fun e => (hstore e).1
  · intro c hc
    obtain hc | ⟨e, hc⟩ := hc
    · exact .inl (hsent c hc)
    · by_cases he : e = d
      · subst he
        obtain ⟨hc, hclock⟩ := hc
        by_cases hafter : ((m.node e).store.clock c.key c.clock).since n.watermark = true
        · refine .inr ⟨e, ?_⟩
          rw [node_set, if_pos rfl, Owed, hs]
          exact ⟨hc, hafter⟩
        · cases hv : (m.node e).store.clock c.key c.clock with
          | foreign =>
            rw [hv] at hclock
            cases hclock
          | own v =>
            rw [hv] at hclock hafter
            have hlt : (m.node e).watermark < v := of_decide_eq_true hclock
            have hle : ¬ n.watermark < v := fun hlt => hafter (decide_eq_true hlt)
            obtain hmem | hs := hread c.key c hc v hv hlt (by omega)
            · have := habove (c, v) hmem (by omega)
              simp only at this
              omega
            · exact .inl hs
      · refine .inr ⟨e, ?_⟩
        rwa [node_set, if_neg he]
  · intro c hc
    refine .inl ?_
    obtain hc | hc := hc
    · obtain hc | ⟨e, x, hx, r, hr, rfl⟩ := hc
      · exact .inl (.inl hc)
      · rw [node_set] at hx
        split at hx
        · rw [ho, List.mem_append, List.mem_singleton] at hx
          obtain hx | rfl := hx
          · exact .inl (.inr ⟨d, x, hx, r, hr, rfl⟩)
          · exact .inr (hplanned r (List.mem_of_mem_take hr))
        · exact .inl (.inr ⟨e, x, hx, r, hr, rfl⟩)
    · refine .inr (planned_set (fun a' ha' r hr => ?_) hc)
      rw [(hrest a' ha').1] at hr
      exact hplanned r (List.mem_of_mem_drop hr)
  · intro e
    rw [node_set]
    split
    · refine ⟨hs ▸ hn.settled, hs ▸ hn.version, ?_, fun a' ha' => ?_, fun a' ha' => ?_,
        fun a' ha' r hr => ?_, fun a' ha' k c hc v hv hlt hle => ?_⟩
      · rw [hs]
        exact hupto.trans (hn.upto a ha).2
      · rw [(hrest a' ha').2, hs]
        exact ⟨hupto, (hn.upto a ha).2⟩
      · rw [(hrest a' ha').1]
        exact (hn.sorted a ha).drop
      · rw [(hrest a' ha').1] at hr
        rw [(hrest a' ha').2]
        exact hn.below a ha r (List.mem_of_mem_drop hr)
      · rw [hs] at hc hv
        rw [(hrest a' ha').2] at hle
        rw [(hrest a' ha').1]
        exact hread k c hc v hv (lt_of_le_of_lt hgrow hlt) hle
    · exact (h.nodes e).mono hsent
  · intro e
    rw [(hstore e).2]
    exact h.cursor e
  · intro e
    rw [(hstore e).2]
    exact h.absorbed e

/-- A device that holds all of the next changeset moves its cursor past it. -/
theorem sound_cursor (h : m.Sound schema) {entry : List (Versioned Key Column V)}
    (hentry : m.relay[(m.node d).cursor]? = some entry)
    (habsorbed : ∀ r ∈ entry, r.1.mark ≤ ((m.node d).store.row r.1.key).mark) :
    (m.set d { m.node d with cursor := (m.node d).cursor + 1 }).Sound schema := by
  have hsent : ∀ c, (m.set d { m.node d with cursor := (m.node d).cursor + 1 }).Sent c ↔
      m.Sent c := fun c => sent_set rfl
  have hlt : (m.node d).cursor < m.relay.length := (List.getElem?_eq_some_iff.mp hentry).1
  apply sound_kept h
  · intro e
    rw [node_set]
    split
    · rename_i he
      rw [he]
    · rfl
  · intro c hc
    obtain hc | ⟨e, hc⟩ := hc
    · exact .inl ((hsent c).mpr hc)
    · refine .inr ⟨e, ?_⟩
      rw [node_set]
      split
      · rename_i he
        subst he
        exact hc
      · exact hc
  · intro c hc
    refine .inl ?_
    obtain hc | hc := hc
    · exact .inl ((hsent c).mp hc)
    · have hsame : ∀ a, ({ m.node d with cursor := (m.node d).cursor + 1 } :
          Node Key Column V).attempt = some a → ∀ r ∈ a.rows, m.Planned r.1 :=
        fun a ha r hr => ⟨d, a, ha, r, hr, rfl⟩
      exact .inr (planned_set hsame hc)
  · intro e
    rw [node_set]
    split
    · have hn := (h.nodes d).mono fun c hc => (hsent c).mpr hc
      exact ⟨hn.settled, hn.version, hn.watermark, hn.upto, hn.sorted, hn.below, hn.captured⟩
    · exact (h.nodes e).mono fun c hc => (hsent c).mpr hc
  · intro e
    rw [node_set]
    split
    · exact hlt
    · exact h.cursor e
  · intro e x hx r hr
    rw [node_set] at hx
    split at hx
    · rename_i he
      subst he
      rw [relay_set, List.take_add_one, hentry, List.mem_append] at hx
      obtain hx | hx := hx
      · exact h.absorbed e x hx r hr
      · obtain rfl := List.mem_singleton.mp hx
        exact habsorbed r hr
    · exact h.absorbed e x hx r hr

theorem sound_bootstrap (h : m.Sound schema) (hkeys : (m.node d).store.table.keys = ∅)
    (hout : (m.node d).outbox = []) (seed : Device) :
    (m.set d (m.node seed).resited).Sound schema := by
  have hempty : ∀ k, ∀ c, c ∉ changesOf schema.columns k ((m.node d).store.row k) := by
    intro k c hc
    have hknown := Store.shown_known hc
    rw [hkeys] at hknown
    exact Finset.notMem_empty k hknown
  have hseed : ∀ e, ∃ e', ((m.set d (m.node seed).resited).node e).store.row =
      (m.node e').store.row ∧
      ((m.set d (m.node seed).resited).node e).cursor = (m.node e').cursor := by
    intro e
    rw [node_set]
    split
    · exact ⟨seed, rfl, rfl⟩
    · exact ⟨e, rfl, rfl⟩
  have hsent : ∀ c, (m.set d (m.node seed).resited).Sent c ↔ m.Sent c := by
    intro c
    constructor
    · intro hc
      obtain hc | ⟨e, x, hx, hr⟩ := hc
      · exact .inl hc
      · rw [node_set] at hx
        split at hx
        · exact .inr ⟨seed, x, hx, hr⟩
        · exact .inr ⟨e, x, hx, hr⟩
    · intro hc
      obtain hc | ⟨e, x, hx, hr⟩ := hc
      · exact .inl hc
      · refine .inr ⟨e, x, ?_, hr⟩
        rw [node_set]
        split
        · rename_i he
          rw [he, hout] at hx
          cases hx
        · exact hx
  have hcovers : Covers (m.Source schema) ((m.set d (m.node seed).resited).Source schema) := by
    refine covers_of_imp fun c hc => ?_
    obtain hc | ⟨e, hc⟩ := hc
    · exact .inl ((hsent c).mpr hc)
    · refine .inr ⟨e, ?_⟩
      rw [node_set]
      split
      · rename_i he
        subst he
        exact absurd hc.1 (hempty c.key c)
      · exact hc
  refine ⟨fun e => ?_, fun c hc => ?_, fun e k hodd => ?_, fun e k c hc => ?_, fun e => ?_,
    fun e => ?_⟩
  · rw [node_set]
    split
    · have hn := h.nodes seed
      exact ⟨hn.settled, fun k x v hx => (by cases hx), hn.watermark, fun a ha => (by cases ha),
        fun a ha => (by cases ha), fun a ha => (by cases ha), fun a ha => (by cases ha)⟩
    · exact (h.nodes e).mono fun c hc => (hsent c).mpr hc
  · have hold : m.Sent c ∨ m.Planned c := by
      obtain hc | hc := hc
      · exact .inl ((hsent c).mp hc)
      · have hnone : ∀ a, (m.node seed).resited.attempt = some a → ∀ r ∈ a.rows, m.Planned r.1 :=
          fun a ha => (by cases ha)
        exact .inr (planned_set hnone hc)
    exact ⟨(h.held c hold).1, fun hodd => ((h.held c hold).2 hodd).covered hodd hcovers⟩
  · obtain ⟨e', hrow, -⟩ := hseed e
    rw [hrow] at hodd ⊢
    exact (h.founded e' k hodd).covered hodd hcovers
  · obtain ⟨e', hrow, -⟩ := hseed e
    rw [hrow] at hc
    obtain hzero | ⟨c', hc', hkey, hle⟩ := h.shown e' k c hc
    · exact .inl hzero
    · obtain ⟨c'', hc'', hkey', hle'⟩ := hcovers c' hc'
      exact .inr ⟨c'', hc'', hkey'.trans hkey, hle.trans hle'⟩
  · obtain ⟨e', -, hcursor⟩ := hseed e
    rw [hcursor]
    exact h.cursor e'
  · obtain ⟨e', hrow, hcursor⟩ := hseed e
    rw [hcursor, hrow]
    exact h.absorbed e'

theorem sound_step {e : Event Device Key Column V} (h : m.Sound schema)
    (hstep : step schema m e = some m') : m'.Sound schema := by
  have hself : ∀ d, (m.put d (m.node d).store).Sound schema := by
    intro d
    rwa [put_self]
  cases e with
  | write d first writes =>
    rw [step] at hstep
    split at hstep
    · rename_i hfirst
      obtain ⟨s, hs, rfl⟩ := Option.map_eq_some_iff.mp hstep
      have hbegun := (h.nodes d).begun hfirst
      exact (Runs.exec_invariant (I := fun s => (m.put d s).Sound schema ∧ s.version ≤ first)
        (fun s w t hs hw => sound_write hbegun hs hw) ⟨hself d, hfirst.le⟩ hs).1
    · cases hstep
  | read d rows =>
    rw [step] at hstep
    split at hstep
    · rename_i hr
      obtain rfl := Option.some.inj hstep
      exact sound_read h hr.2
    · cases hstep
  | commit d count =>
    obtain ⟨a, ha, hstep⟩ := Option.bind_eq_some_iff.mp hstep
    split at hstep
    · obtain rfl := Option.some.inj hstep
      exact sound_commit h ha count
    · cases hstep
  | abandon d =>
    obtain rfl := Option.some.inj hstep
    exact sound_abandon h
  | push d i =>
    obtain ⟨entry, hentry, rfl⟩ := Option.map_eq_some_iff.mp hstep
    exact sound_push h (List.mem_of_getElem? hentry)
  | ack d i =>
    obtain ⟨entry, hentry, hstep⟩ := Option.bind_eq_some_iff.mp hstep
    split at hstep
    · rename_i hmem
      obtain rfl := Option.some.inj hstep
      exact sound_ack h hentry hmem
    · cases hstep
  | apply d first i count =>
    rw [step] at hstep
    split at hstep
    · rename_i hfirst
      obtain ⟨entry, hentry, rfl⟩ := Option.map_eq_some_iff.mp hstep
      refine (sound_mergeAll ((h.nodes d).begun hfirst) (hself d) fun x hx => ?_).1
      exact .inl ⟨entry, List.mem_of_getElem? hentry, x, List.mem_of_mem_take hx, rfl⟩
    · cases hstep
  | pull d first =>
    rw [step] at hstep
    split at hstep
    · rename_i hfirst
      obtain ⟨entry, hentry, rfl⟩ := Option.map_eq_some_iff.mp hstep
      obtain ⟨hsound, -, hmerged⟩ := sound_mergeAll ((h.nodes d).begun hfirst) (hself d)
        fun x hx => .inl ⟨entry, List.mem_of_getElem? hentry, x, hx, rfl⟩
      generalize (m.node d).store.mergeAll schema first entry = s at hsound hmerged
      have hcursor : ((m.put d s).set d { (m.put d s).node d with
          cursor := ((m.put d s).node d).cursor + 1 }).Sound schema := by
        apply sound_cursor hsound
        · rw [node_put]
          exact hentry
        · rw [node_put]
          exact hmerged
      rw [node_put, put, set_set] at hcursor
      exact hcursor
    · cases hstep
  | bootstrap d seed =>
    rw [step] at hstep
    split at hstep
    · rename_i hfresh
      obtain rfl := Option.some.inj hstep
      exact sound_bootstrap h hfresh.1 hfresh.2 seed
    · cases hstep

theorem sound_empty : (empty : Fleet Device Key Column V).Sound schema := by
  refine ⟨fun d => ?_, fun c hc => ?_, fun d k hodd => ?_, fun d k c hc => ?_, fun d => le_refl 0,
    fun d entry hentry => (by cases hentry)⟩
  · exact ⟨fun k => settled_absent, fun k x v hx => (by cases hx), le_refl 0,
      fun a ha => (by cases ha), fun a ha => (by cases ha), fun a ha => (by cases ha),
      fun a ha => (by cases ha)⟩
  · obtain (⟨entry, hentry, -⟩ | ⟨d, entry, hentry, -⟩) | ⟨d, a, ha, -⟩ := hc
    · cases hentry
    · cases hentry
    · cases ha
  · cases hodd
  · have hknown := Store.shown_known hc
    cases hknown

theorem sound_run {events : List (Event Device Key Column V)}
    (h : Runs.exec (step schema) empty events = some m) : m.Sound schema :=
  Runs.exec_invariant (fun _ _ _ hs hstep => sound_step hs hstep) sound_empty h

/-- Nothing is left to capture, to push or to pull. -/
def Quiet (schema : Schema Column V) (m : Fleet Device Key Column V) : Prop :=
  ∀ d, (∀ k ∈ (m.node d).store.table.keys,
      (m.node d).store.owed schema (m.node d).watermark k = []) ∧
    (m.node d).outbox = [] ∧ (m.node d).cursor = m.relay.length

theorem relayed_of_source (hq : m.Quiet schema) {c : Change Key Column V}
    (hc : m.Source schema c) : ∃ entry ∈ m.relay, ∃ r ∈ entry, r.1 = c := by
  obtain (hc | ⟨d, entry, hentry, -⟩) | ⟨d, hc, hclock⟩ := hc
  · exact hc
  · rw [(hq d).2.1] at hentry
    cases hentry
  · cases hv : (m.node d).store.clock c.key c.clock with
    | foreign =>
      rw [hv] at hclock
      cases hclock
    | own v =>
      rw [hv] at hclock
      have hmem : (c, v) ∈ (m.node d).store.owed schema (m.node d).watermark c.key :=
        Store.mem_owed.mpr ⟨hc, hv, of_decide_eq_true hclock⟩
      rw [(hq d).1 c.key (Store.shown_known hc)] at hmem
      cases hmem

theorem le_of_source (h : m.Sound schema) (hq : m.Quiet schema) {c : Change Key Column V}
    (hc : m.Source schema c) (d : Device) : c.mark ≤ ((m.node d).store.row c.key).mark := by
  obtain ⟨entry, hentry, r, hr, rfl⟩ := relayed_of_source hq hc
  refine h.absorbed d entry ?_ r hr
  rwa [(hq d).2.2, List.take_length]

theorem le_of_quiet (h : m.Sound schema) (hq : m.Quiet schema) (a b : Device) (k : Key) :
    ((m.node b).store.row k).mark ≤ ((m.node a).store.row k).mark := by
  apply mark_le_of_changes ((h.nodes b).settled k)
  intro c hc
  obtain ⟨w, hw, hzero⟩ | ⟨c', hc', hkey, hle⟩ := h.shown b k c hc
  · have hkey := (settled_of_mem hc).2
    obtain ⟨key, cl, write⟩ := c
    obtain rfl : write = some w := hw
    obtain rfl : key = k := hkey
    obtain ⟨rfl, cells, hcells, -⟩ := mem_changesOf_some.mp hc
    have hodd : ((m.node b).store.row key).cl % 2 = 1 :=
      ((h.nodes b).settled key).wellFormed.mp (by rw [hcells]; rfl)
    obtain ⟨c', hc', hkey, hfar⟩ := h.founded b key hodd w.column
    have hle := le_of_source h hq hc' a
    rw [hkey] at hle
    refine le_trans ?_ hle
    obtain hlt | ⟨hcl, w', hw', hcol, hpos⟩ := hfar
    · exact change_le_of_lt hlt
    · refine write_le hcl.symm rfl hw' hcol.symm ?_
      rw [ColumnWrite.mark, ColumnWrite.mark, WithBot.coe_le_coe, Prod.Lex.toLex_le_toLex]
      exact .inl (by omega)
  · rw [← hkey]
    exact hle.trans (le_of_source h hq hc' a)

/-- Whatever devices wrote and in whatever order they captured, pushed and pulled, with captures and
pulls cut off anywhere: once nothing is left to capture, to push or to pull, all hold the same rows.
-/
theorem quiet_agrees {events : List (Event Device Key Column V)}
    (h : Runs.exec (step schema) empty events = some m) (hq : m.Quiet schema) (a b : Device)
    (k : Key) : (m.node a).store.row k = (m.node b).store.row k := by
  have hs := sound_run h
  exact eq_of_mark ((hs.nodes a).settled k) ((hs.nodes b).settled k)
    (le_antisymm (le_of_quiet hs hq b a k) (le_of_quiet hs hq a b k))

theorem le_turn {s : Store Key Column V} {r : Row Column V} (h : (s.row k).mark ≤ r.mark)
    (f : Clocks Column) (v : ℕ) (j : Key) : (s.row j).mark ≤ ((s.turn k r f v).row j).mark := by
  rw [Store.row_turn]
  split
  · rename_i hj
    rw [hj]
    exact h
  · exact le_refl _

theorem le_write {first : ℕ} {s t : Store Key Column V} {w : LocalWrite Key Column V}
    (hw : s.write schema first w = some t) (j : Key) : (s.row j).mark ≤ (t.row j).mark := by
  cases w with
  | insert k values =>
    rw [Store.write] at hw
    split at hw
    · obtain rfl := Option.some.inj hw
      exact le_turn (le_reinserted (s.row k) values) _ _ j
    · cases hw
  | update k col value =>
    rw [Store.write] at hw
    split at hw
    · cases hw
    · split at hw
      · obtain rfl := Option.some.inj hw
        exact le_refl _
      · obtain rfl := Option.some.inj hw
        exact le_turn (le_row_updated (s.row k) col value) _ _ j
  | delete k =>
    rw [Store.write] at hw
    split at hw
    · obtain rfl := Option.some.inj hw
      exact le_turn (le_deleted (s.row k)) _ _ j
    · cases hw

/-- The rows of a device after a step are those that it had, or further. -/
theorem le_step {e : Event Device Key Column V} (h : m.Sound schema)
    (hstep : step schema m e = some m') (a : Device) (j : Key) :
    ((m.node a).store.row j).mark ≤ ((m'.node a).store.row j).mark := by
  have hset : ∀ {d : Device} {n : Node Key Column V},
      ((m.node d).store.row j).mark ≤ (n.store.row j).mark →
      ((m.node a).store.row j).mark ≤ (((m.set d n).node a).store.row j).mark := by
    intro d n hle
    rw [node_set]
    split
    · rename_i ha
      rw [ha]
      exact hle
    · exact le_refl _
  have hall : ∀ {d : Device} {first : ℕ} {rows : List (Versioned Key Column V)},
      (m.node d).store.version < first → (∀ x ∈ rows, m.Sent x.1) →
      ((m.node d).store.row j).mark ≤
        (((m.node d).store.mergeAll schema first rows).row j).mark := by
    intro d first rows hfirst hrows
    have hself : (m.put d (m.node d).store).Sound schema := by
      rwa [put_self]
    exact (sound_mergeAll ((h.nodes d).begun hfirst) hself hrows).2.1 j
  cases e with
  | write d first writes =>
    rw [step] at hstep
    split at hstep
    · obtain ⟨s, hs, rfl⟩ := Option.map_eq_some_iff.mp hstep
      exact hset (Runs.exec_le (I := fun _ => True) (f := fun s : Store Key Column V =>
        (s.row j).mark) (fun _ _ _ _ _ => trivial) (fun s w t _ hw => le_write hw j) trivial hs)
    · cases hstep
  | read d rows =>
    rw [step] at hstep
    split at hstep
    · obtain rfl := Option.some.inj hstep
      exact hset (le_refl _)
    · cases hstep
  | commit d count =>
    obtain ⟨b, hb, hstep⟩ := Option.bind_eq_some_iff.mp hstep
    split at hstep
    · obtain rfl := Option.some.inj hstep
      exact hset (le_refl _)
    · cases hstep
  | abandon d =>
    obtain rfl := Option.some.inj hstep
    exact hset (le_refl _)
  | push d i =>
    obtain ⟨entry, hentry, rfl⟩ := Option.map_eq_some_iff.mp hstep
    exact le_refl _
  | ack d i =>
    obtain ⟨entry, hentry, hstep⟩ := Option.bind_eq_some_iff.mp hstep
    split at hstep
    · obtain rfl := Option.some.inj hstep
      exact hset (le_refl _)
    · cases hstep
  | apply d first i count =>
    rw [step] at hstep
    split at hstep
    · rename_i hfirst
      obtain ⟨entry, hentry, rfl⟩ := Option.map_eq_some_iff.mp hstep
      exact hset (hall hfirst fun x hx =>
        .inl ⟨entry, List.mem_of_getElem? hentry, x, List.mem_of_mem_take hx, rfl⟩)
    · cases hstep
  | pull d first =>
    rw [step] at hstep
    split at hstep
    · rename_i hfirst
      obtain ⟨entry, hentry, rfl⟩ := Option.map_eq_some_iff.mp hstep
      exact hset (hall hfirst fun x hx =>
        .inl ⟨entry, List.mem_of_getElem? hentry, x, hx, rfl⟩)
    · cases hstep
  | bootstrap d seed =>
    rw [step] at hstep
    split at hstep
    · rename_i hfresh
      obtain rfl := Option.some.inj hstep
      refine hset ?_
      rw [Store.row, (m.node d).store.table.known j (by simp [hfresh.1])]
      refine mark_le_iff.mpr ((Nat.eq_zero_or_pos _).symm.imp id fun hzero => ⟨hzero.symm, ?_⟩)
      exact fun col => bot_le
    · cases hstep

/-- What a device held at any time of a run is on every device, or overtaken there, whenever nothing
is left to capture, to push or to pull. -/
theorem quiet_loses_nothing {before after : List (Event Device Key Column V)}
    (h : Runs.exec (step schema) empty before = some m)
    (h' : Runs.exec (step schema) m after = some m') (hq : m'.Quiet schema) (a b : Device)
    (k : Key) : ((m.node a).store.row k).mark ≤ ((m'.node b).store.row k).mark := by
  have hs := sound_run h
  have hs' : m'.Sound schema :=
    Runs.exec_invariant (fun _ _ _ hs hstep => sound_step hs hstep) hs h'
  have hgrow : ((m.node a).store.row k).mark ≤ ((m'.node a).store.row k).mark :=
    Runs.exec_le (I := Sound schema)
      (f := fun m : Fleet Device Key Column V => ((m.node a).store.row k).mark)
      (fun _ _ _ hs hstep => sound_step hs hstep) (fun _ _ _ hs hstep => le_step hs hstep a k) hs h'
  exact hgrow.trans (le_of_quiet hs' hq b a k)

instance [Fintype Device] (m : Fleet Device Key Column V) : Decidable (m.Quiet schema) :=
  inferInstanceAs (Decidable (∀ _, _))

/-- One device writes a column of a row that the other one deletes and inserts again. The first chunk
of the other one holds only the new causal length, and its capture is cut off there. -/
def crossing : List (Event Bool Unit Bool ℕ) :=
  let cell (cl : ℕ) (col : Bool) (value version : ℕ) : Change Unit Bool ℕ :=
    ⟨(), cl, some ⟨col, value, version⟩⟩
  let renewed : List (Versioned Unit Bool ℕ) :=
    [(⟨(), 3, none⟩, 2), (cell 3 false 7 1, 2), (cell 3 true 7 1, 2)]
  [.write false 1 [.insert () fun _ => 1], .read false [(cell 1 false 1 1, 1), (cell 1 true 1 1, 1)],
    .commit false 2, .push false 0, .ack false 0, .pull false 2, .pull true 1,
    .write false 2 [.update () false 5], .write true 2 [.delete (), .insert () fun _ => 7],
    .read true renewed, .commit true 1, .abandon true, .push true 0, .ack true 0, .pull false 3,
    .read false [(cell 3 false 5 0, 3), (cell 3 true 1 0, 3)], .commit false 2, .push false 0,
    .ack false 0, .read true renewed, .commit true 3, .push true 0, .ack true 0, .pull true 3,
    .pull true 3, .pull true 3, .pull false 4, .pull false 4]

theorem quiet_agrees_crossing : ∃ m, Runs.exec (step Mesh.pairSchema) empty crossing = some m ∧
    (m.node false).store.row () = (m.node true).store.row () := by
  have hrun : ∃ m, Runs.exec (step Mesh.pairSchema) empty crossing = some m ∧
      m.Quiet Mesh.pairSchema := Runs.exec_evaluates (by decide +kernel)
  obtain ⟨m, hm, hq⟩ := hrun
  exact ⟨m, hm, quiet_agrees hm hq false true ()⟩

theorem quiet_loses_nothing_crossing : ∃ m m',
    Runs.exec (step Mesh.pairSchema) empty (crossing.take 9) = some m ∧
      Runs.exec (step Mesh.pairSchema) m (crossing.drop 9) = some m' ∧
      ((m.node false).store.row ()).mark ≤ ((m'.node true).store.row ()).mark := by
  have hrun : ∃ m', Runs.exec (step Mesh.pairSchema) empty (crossing.take 9 ++ crossing.drop 9) =
      some m' ∧ m'.Quiet Mesh.pairSchema := Runs.exec_evaluates (by decide +kernel)
  obtain ⟨m', hm', hq⟩ := hrun
  obtain ⟨m, hm, hafter⟩ := (Runs.exec_append _ _ _ _).mp hm'
  exact ⟨m, m', hm, hafter, quiet_loses_nothing hm hafter hq false true ()⟩

end YapStack.Sync.Crr.Fleet
