import YapStack.Sync.Uniqueness

set_option linter.unusedSectionVars false

namespace YapStack.Sync.Uniqueness

open Crr

variable {Dev I V : Type} [DecidableEq Dev] [LinearOrder I] [LinearOrder V]
variable {blank : V} {s s' : State Dev I V} {a : Action Dev I V} {d e : Dev} {n m : I}

/-- What holds of the devices in any run. -/
structure Sound (s : State Dev I V) : Prop where
  wellFormed : ∀ d n, ((s.notes d).row n).WellFormed
  lifespan : ∀ d n, ((s.notes d).row n).cl ≤ 2
  writes : ∀ c ∈ s.log, ∀ w, c.write = some w → c.cl = 1
  tombstones : ∀ c ∈ s.log, c.write = none → c.cl = 2 ∧ ∃ d, Tombstoned (s.notes d) c.key
  rows : ∀ d n, ((s.notes d).row n).cl ≠ 0 → n ∈ s.created.image Prod.fst
  keys : ∀ c ∈ s.log, c.key ∈ s.created.image Prod.fst
  unique : ∀ p ∈ s.created, ∀ q ∈ s.created, p.1 = q.1 → p = q
  session : ∀ d n cells, ((s.notes d).row n).cells = some cells →
    (cells .sessionId).version ≠ none → (n, (cells .sessionId).value) ∈ s.created
  sessionLog : ∀ c ∈ s.log, ∀ w, c.write = some w → w.column = .sessionId →
    (c.key, w.value) ∈ s.created
  announced : ∀ p ∈ s.created, ∀ col, ∃ c ∈ s.log, c.key = p.1 ∧
    ∃ w, c.write = some w ∧ w.column = col

theorem sound_empty : Sound (State.empty : State Dev I V) := by
  refine ⟨fun _ _ => absent_wellFormed, fun _ _ => Nat.zero_le 2, ?_, ?_, ?_, ?_, ?_, ?_, ?_, ?_⟩
  · intro c hc
    cases hc
  · intro c hc
    cases hc
  · intro d n h
    exact absurd rfl h
  · intro c hc
    cases hc
  · intro p hp
    cases hp
  · intro d n cells h
    cases h
  · intro c hc
    cases hc
  · intro p hp
    cases hp

theorem set_row (t : Notes I V) (n m : I) (r : Row Column V) :
    (t.set n r).row m = if m = n then r else t.row m := by
  simp only [Replica.set, Function.update_apply]

/-- The state after one device has written one row. -/
def State.write (s : State Dev I V) (d : Dev) (n : I) (r : Row Column V)
    (log : Finset (Change I Column V)) (created : Finset (I × V)) : State Dev I V :=
  ⟨Function.update s.notes d ((s.notes d).set n r), log, created⟩

theorem write_row (s : State Dev I V) (d e : Dev) (n m : I) (r : Row Column V)
    (log : Finset (Change I Column V)) (created : Finset (I × V)) :
    ((s.write d n r log created).notes e).row m =
      if e = d ∧ m = n then r else (s.notes e).row m := by
  simp only [State.write, Function.update_apply]
  by_cases he : e = d
  · subst he
    simp only [if_true, true_and, set_row]
  · simp only [he, if_false, false_and]

/-- A change of the log is old, or it writes a column of the one row that was written. -/
structure Logged (s : State Dev I V) (n : I) (log : Finset (Change I Column V))
    (created : Finset (I × V)) : Prop where
  kept : s.log ⊆ log
  fresh : ∀ c ∈ log, c ∈ s.log ∨ (c.key = n ∧ c.cl = 1 ∧ ∃ w, c.write = some w ∧
    (w.column = .sessionId → (n, w.value) ∈ created))

theorem Sound.write (h : Sound s) {r : Row Column V} {log : Finset (Change I Column V)}
    {created : Finset (I × V)} (hlog : Logged s n log created) (hsub : s.created ⊆ created)
    (hwf : r.WellFormed) (hle : r.cl ≤ 2) (hcl : ((s.notes d).row n).cl ≤ r.cl)
    (hkey : n ∈ created.image Prod.fst)
    (hsession : ∀ cells, r.cells = some cells → (cells .sessionId).version ≠ none →
      (n, (cells .sessionId).value) ∈ created)
    (hunique : ∀ p ∈ created, ∀ q ∈ created, p.1 = q.1 → p = q)
    (hannounced : ∀ p ∈ created, p ∉ s.created → ∀ col, ∃ c ∈ log, c.key = p.1 ∧
      ∃ w, c.write = some w ∧ w.column = col) :
    Sound (s.write d n r log created) := by
  have himage : s.created.image Prod.fst ⊆ created.image Prod.fst := Finset.image_subset_image hsub
  refine ⟨fun e m => ?_, fun e m => ?_, fun c hc w hw => ?_, fun c hc hw => ?_, fun e m hm => ?_,
    fun c hc => ?_, hunique, fun e m cells hcells hv => ?_, fun c hc w hw hcol => ?_,
    fun p hp col => ?_⟩
  · rw [write_row]
    split
    · exact hwf
    · exact h.wellFormed e m
  · rw [write_row]
    split
    · exact hle
    · exact h.lifespan e m
  · obtain hold | ⟨_, hone, _⟩ := hlog.fresh c hc
    · exact h.writes c hold w hw
    · exact hone
  · obtain hold | ⟨_, _, w, hw', _⟩ := hlog.fresh c hc
    · obtain ⟨htwo, e, hpos, heven⟩ := h.tombstones c hold hw
      refine ⟨htwo, e, ?_⟩
      have hcl2 := h.lifespan e c.key
      unfold Tombstoned
      rw [write_row]
      split
      · rename_i heq
        rw [heq.1, heq.2] at hpos heven
        omega
      · exact ⟨hpos, heven⟩
    · rw [hw] at hw'
      cases hw'
  · rw [write_row] at hm
    split at hm
    · rename_i heq
      rw [heq.2]
      exact hkey
    · exact himage (h.rows e m hm)
  · obtain hold | ⟨hk, _, _⟩ := hlog.fresh c hc
    · exact himage (h.keys c hold)
    · rw [hk]
      exact hkey
  · rw [write_row] at hcells
    split at hcells
    · rename_i heq
      rw [heq.2]
      exact hsession cells hcells hv
    · exact hsub (h.session e m cells hcells hv)
  · obtain hold | ⟨hk, _, w', hw', hs⟩ := hlog.fresh c hc
    · exact hsub (h.sessionLog c hold w hw hcol)
    · rw [hw] at hw'
      cases hw'
      rw [hk]
      exact hs hcol
  · by_cases hold : p ∈ s.created
    · obtain ⟨c, hc, hrest⟩ := h.announced p hold col
      exact ⟨c, hlog.kept hc, hrest⟩
    · exact hannounced p hp hold col

theorem live_cl {r : Row Column V} (hwf : r.WellFormed) (hle : r.cl ≤ 2)
    (h : r.cells.isSome = true) : r.cl = 1 := by
  have hodd := hwf.mp h
  omega

theorem mem_insertChanges {values : Column → V} {c : Change I Column V}
    (h : c ∈ insertChanges n values) :
    c.key = n ∧ c.cl = 1 ∧ ∃ col, c.write = some ⟨col, values col, 1⟩ := by
  obtain ⟨col, _, rfl⟩ := Finset.mem_image.mp h
  exact ⟨rfl, rfl, col, rfl⟩

theorem insertChanges_mem (n : I) (values : Column → V) (col : Column) :
    (⟨n, 1, some ⟨col, values col, 1⟩⟩ : Change I Column V) ∈ insertChanges n values := by
  exact Finset.mem_image.mpr ⟨col, Finset.mem_univ col, rfl⟩

theorem inserted_wellFormed (values : Column → V) : (Row.inserted values).WellFormed := by
  simp [Row.WellFormed, Row.inserted]

theorem Sound.create (h : Sound s) {session content now : V}
    (hfresh : n ∉ s.created.image Prod.fst) :
    Sound (s.write d n (Row.inserted (noteValues session content now))
      (s.log ∪ insertChanges n (noteValues session content now))
      (insert (n, session) s.created)) := by
  have hnone : ((s.notes d).row n).cl = 0 := by
    by_contra hne
    exact hfresh (h.rows d n hne)
  refine h.write ⟨Finset.subset_union_left, fun c hc => ?_⟩ (Finset.subset_insert _ _)
    (inserted_wellFormed _) (by simp [Row.inserted]) (by omega) (by simp) ?_ ?_ ?_
  · obtain hold | hnew := Finset.mem_union.mp hc
    · exact .inl hold
    · obtain ⟨hk, hone, col, hw⟩ := mem_insertChanges hnew
      refine .inr ⟨hk, hone, _, hw, fun hcol => ?_⟩
      dsimp only at hcol
      rw [hcol]
      exact Finset.mem_insert_self _ _
  · intro cells hcells _
    cases hcells
    exact Finset.mem_insert_self _ _
  · intro p hp q hq hpq
    obtain rfl | hp := Finset.mem_insert.mp hp
    · obtain rfl | hq := Finset.mem_insert.mp hq
      · rfl
      · exact absurd (Finset.mem_image.mpr ⟨q, hq, hpq.symm⟩) hfresh
    · obtain rfl | hq := Finset.mem_insert.mp hq
      · exact absurd (Finset.mem_image.mpr ⟨p, hp, hpq⟩) hfresh
      · exact h.unique p hp q hq hpq
  · intro p hp hnew col
    obtain rfl | hp := Finset.mem_insert.mp hp
    · exact ⟨_, Finset.mem_union_right _ (insertChanges_mem n _ col), rfl, _, rfl, rfl⟩
    · exact absurd hp hnew

theorem mem_editChanges {cl : Nat} {cells : Column → Cell V} {content now : V}
    {c : Change I Column V} (h : c ∈ editChanges n cl cells content now) :
    c.key = n ∧ c.cl = cl ∧ ∃ w, c.write = some w ∧ w.column ≠ .sessionId := by
  obtain ⟨col, hcol, rfl⟩ := Finset.mem_image.mp h
  refine ⟨rfl, rfl, _, rfl, ?_⟩
  have hmem := (Finset.mem_filter.mp hcol).1
  rintro rfl
  simp at hmem

theorem Sound.edit (h : Sound s) {cells : Column → Cell V} {content now : V}
    (hcells : ((s.notes d).row n).cells = some cells) :
    Sound (s.write d n { (s.notes d).row n with cells := some (editCells cells content now) }
      (s.log ∪ editChanges n ((s.notes d).row n).cl cells content now) s.created) := by
  have hone : ((s.notes d).row n).cl = 1 :=
    live_cl (h.wellFormed d n) (h.lifespan d n) (by rw [hcells]; rfl)
  refine h.write ⟨Finset.subset_union_left, fun c hc => ?_⟩ (Finset.Subset.refl _) ?_ ?_ ?_
    (h.rows d n (by omega)) ?_ h.unique (fun p hp hnew => absurd hp hnew)
  · obtain hold | hnew := Finset.mem_union.mp hc
    · exact .inl hold
    · obtain ⟨hk, hcl, w, hw, hcol⟩ := mem_editChanges hnew
      exact .inr ⟨hk, hcl.trans hone, w, hw, fun heq => absurd heq hcol⟩
  · simp [Row.WellFormed, hone]
  · exact h.lifespan d n
  · exact le_refl _
  · intro cells' hcells' hv
    cases hcells'
    exact h.session d n cells hcells hv

theorem log_cl (h : Sound s) {c : Change I Column V} (hc : c ∈ s.log) : c.cl ≤ 2 := by
  cases hw : c.write with
  | none => exact le_of_eq (h.tombstones c hc hw).1
  | some w =>
    rw [h.writes c hc w hw]
    omega

theorem Sound.deliver (h : Sound s) {c : Change I Column V} (hc : c ∈ s.log)
    (values : Column → V) :
    Sound (s.write d c.key (mergeInsert ((s.notes d).row c.key) c values) s.log s.created) := by
  have hcl := log_cl h hc
  have hlife := h.lifespan d c.key
  refine h.write ⟨Finset.Subset.refl _, fun c' hc' => .inl hc'⟩ (Finset.Subset.refl _)
    (mergeInsert_wellFormed (h.wellFormed d c.key)) ?_ ?_ (h.keys c hc) ?_ h.unique
    (fun p hp hnew => absurd hp hnew)
  · rw [mergeInsert_cl]
    omega
  · rw [mergeInsert_cl]
    omega
  · intro cells' hcells' hv
    obtain ⟨cells, hcells, hv', heq⟩ | ⟨w, hw, hcol, heq⟩ :=
      mergeInsert_from _ c values cells' hcells' .sessionId hv
    · rw [heq]
      exact h.session d c.key cells hcells hv'
    · rw [heq]
      exact h.sessionLog c hc w hw hcol

/-- A loser is a note that the device still has. -/
theorem loser_live {t : Notes I V} (h : n ∈ losers t) : (t.row n).cells.isSome = true := by
  obtain ⟨_, w, _, hout⟩ := Finset.mem_filter.mp h
  simp only [outranks] at hout
  split at hout
  · rename_i hn
    rw [hn]
    rfl
  · cases hout

theorem dedupNotes_row (t : Notes I V) (n : I) :
    (dedupNotes t).row n = if n ∈ losers t then (t.row n).deleted else t.row n := by
  simp only [dedupNotes, Replica.deleteWhere, loses, decide_eq_true_eq]

/-- The state after a pass. -/
def State.pass (s : State Dev I V) (d : Dev) : State Dev I V :=
  { s with
    notes := Function.update s.notes d (dedupNotes (s.notes d))
    log := s.log ∪ Uniqueness.tombstones (s.notes d) }

theorem pass_row (s : State Dev I V) (d e : Dev) (n : I) :
    ((s.pass d).notes e).row n =
      if e = d ∧ n ∈ losers (s.notes d) then ((s.notes d).row n).deleted
      else (s.notes e).row n := by
  simp only [State.pass, Function.update_apply]
  by_cases he : e = d
  · subst he
    simp only [if_true, true_and, dedupNotes_row]
  · simp only [he, if_false, false_and]

theorem Sound.loser_cl (h : Sound s) (hn : n ∈ losers (s.notes d)) :
    ((s.notes d).row n).cl = 1 :=
  live_cl (h.wellFormed d n) (h.lifespan d n) (loser_live hn)

theorem Sound.pass (h : Sound s) (d : Dev) : Sound (s.pass d) := by
  have hmem : ∀ c ∈ (s.pass d).log, c ∈ s.log ∨
      (c.key ∈ losers (s.notes d) ∧ c.cl = 2 ∧ c.write = none) := by
    intro c hc
    obtain hold | hnew := Finset.mem_union.mp hc
    · exact .inl hold
    · obtain ⟨n, hn, rfl⟩ := Finset.mem_image.mp hnew
      exact .inr ⟨hn, by simp [Row.deleted, h.loser_cl hn], rfl⟩
  have htomb : ∀ e m, Tombstoned (s.notes e) m → Tombstoned ((s.pass d).notes e) m := by
    rintro e m ⟨hpos, heven⟩
    unfold Tombstoned
    rw [pass_row]
    split
    · rename_i heq
      have hone := h.loser_cl heq.2
      simp [Row.deleted, hone]
    · exact ⟨hpos, heven⟩
  refine ⟨fun e m => ?_, fun e m => ?_, fun c hc w hw => ?_, fun c hc hw => ?_, fun e m hm => ?_,
    fun c hc => ?_, h.unique, fun e m cells hcells hv => ?_, fun c hc w hw hcol => ?_,
    fun p hp col => ?_⟩
  · rw [pass_row]
    split
    · rename_i heq
      simp [Row.WellFormed, Row.deleted, h.loser_cl heq.2]
    · exact h.wellFormed e m
  · rw [pass_row]
    split
    · rename_i heq
      simp [Row.deleted, h.loser_cl heq.2]
    · exact h.lifespan e m
  · obtain hold | ⟨_, _, hnone⟩ := hmem c hc
    · exact h.writes c hold w hw
    · rw [hw] at hnone
      cases hnone
  · obtain hold | ⟨hk, htwo, _⟩ := hmem c hc
    · obtain ⟨htwo, e, he⟩ := h.tombstones c hold hw
      exact ⟨htwo, e, htomb e c.key he⟩
    · refine ⟨htwo, d, ?_⟩
      unfold Tombstoned
      rw [pass_row, if_pos ⟨rfl, hk⟩]
      simp [Row.deleted, h.loser_cl hk]
  · rw [pass_row] at hm
    split at hm
    · rename_i heq
      exact h.rows d m (by rw [h.loser_cl heq.2]; exact one_ne_zero)
    · exact h.rows e m hm
  · obtain hold | ⟨hk, _, _⟩ := hmem c hc
    · exact h.keys c hold
    · exact h.rows d c.key (by rw [h.loser_cl hk]; exact one_ne_zero)
  · rw [pass_row] at hcells
    split at hcells
    · cases hcells
    · exact h.session e m cells hcells hv
  · obtain hold | ⟨_, _, hnone⟩ := hmem c hc
    · exact h.sessionLog c hold w hw hcol
    · rw [hw] at hnone
      cases hnone
  · obtain ⟨c, hc, hrest⟩ := h.announced p hp col
    exact ⟨c, Finset.mem_union_left _ hc, hrest⟩

theorem Sound.step (h : Sound s) (hst : step blank s a = some s') : Sound s' := by
  cases a with
  | create d n session content now =>
    simp only [Uniqueness.step] at hst
    split at hst
    · cases hst
    · rename_i hfresh
      cases hst
      exact h.create hfresh
  | edit d n content now =>
    simp only [Uniqueness.step] at hst
    split at hst
    · cases hst
    · rename_i cells hcells
      cases hst
      exact h.edit hcells
  | deliver d c now =>
    simp only [Uniqueness.step] at hst
    split at hst
    · rename_i hc
      cases hst
      exact h.deliver hc _
    · cases hst
  | dedup d =>
    cases hst
    exact h.pass d

/-- Of every session that ever had a note, some note is deleted nowhere. -/
def Spared (s : State Dev I V) : Prop :=
  ∀ p ∈ s.created, ∃ q ∈ s.created, q.2 = p.2 ∧ Undeleted s q.1

theorem undeleted_write {r : Row Column V} {log : Finset (Change I Column V)}
    {created : Finset (I × V)} (h : Undeleted s m) (hr : m = n → ¬ (0 < r.cl ∧ r.cl % 2 = 0)) :
    Undeleted (s.write d n r log created) m := by
  intro e
  unfold Tombstoned
  rw [write_row]
  split
  · rename_i heq
    exact hr heq.2
  · exact h e

/-- No tombstone of an undeleted note is under way. -/
theorem Sound.undeleted_cl (h : Sound s) {c : Change I Column V} (hc : c ∈ s.log)
    (hn : Undeleted s c.key) : c.cl = 1 := by
  cases hw : c.write with
  | none =>
    obtain ⟨_, e, he⟩ := h.tombstones c hc hw
    exact absurd he (hn e)
  | some w => exact h.writes c hc w hw

theorem undeleted_step (h : Sound s) (hn : Undeleted s m)
    (hpass : ∀ d, a = .dedup d → m ∉ losers (s.notes d)) (hst : step blank s a = some s') :
    Undeleted s' m := by
  cases a with
  | create d n session content now =>
    simp only [step] at hst
    split at hst
    · cases hst
    · cases hst
      exact undeleted_write hn (fun _ => by simp [Row.inserted])
  | edit d n content now =>
    simp only [step] at hst
    split at hst
    · cases hst
    · cases hst
      exact undeleted_write hn (fun heq => heq ▸ hn d)
  | deliver d c now =>
    simp only [step] at hst
    split at hst
    · rename_i hc
      cases hst
      refine undeleted_write hn (fun heq => ?_)
      subst heq
      have hone := h.undeleted_cl hc hn
      have hle := h.lifespan d c.key
      have hlive := hn d
      unfold Tombstoned at hlive
      rw [mergeInsert_cl]
      omega
    · cases hst
  | dedup d =>
    cases hst
    intro e
    have hrow := pass_row s d e m
    rw [if_neg (fun heq => hpass d rfl heq.2)] at hrow
    have hlive := hn e
    unfold Tombstoned at hlive ⊢
    rw [← hrow] at hlive
    exact hlive

theorem created_subset (hst : step blank s a = some s') : s.created ⊆ s'.created := by
  cases a with
  | create d n session content now =>
    simp only [step] at hst
    split at hst
    · cases hst
    · cases hst
      exact Finset.subset_insert _ _
  | edit d n content now =>
    simp only [step] at hst
    split at hst
    · cases hst
    · cases hst
      exact Finset.Subset.refl _
  | deliver d c now =>
    simp only [step] at hst
    split at hst
    · cases hst
      exact Finset.Subset.refl _
    · cases hst
  | dedup d =>
    cases hst
    exact Finset.Subset.refl _

theorem created_new (hst : step blank s a = some s') {p : I × V} (hp : p ∈ s'.created) :
    p ∈ s.created ∨ (p.1 ∉ s.created.image Prod.fst ∧ ∀ d, a ≠ .dedup d ∧
      ((s'.notes d).row p.1 = (s.notes d).row p.1 ∨ ((s'.notes d).row p.1).cl = 1)) := by
  cases a with
  | create d n session content now =>
    simp only [step] at hst
    split at hst
    · cases hst
    · rename_i hfresh
      cases hst
      obtain rfl | hold := Finset.mem_insert.mp hp
      · refine .inr ⟨hfresh, fun e => ⟨(by rintro ⟨⟩), ?_⟩⟩
        have hrow := write_row s d e n n (Row.inserted (noteValues session content now))
          (s.log ∪ insertChanges n (noteValues session content now))
          (insert (n, session) s.created)
        split at hrow
        · exact .inr (congrArg Row.cl hrow)
        · exact .inl hrow
      · exact .inl hold
  | edit d n content now =>
    simp only [step] at hst
    split at hst
    · cases hst
    · cases hst
      exact .inl hp
  | deliver d c now =>
    simp only [step] at hst
    split at hst
    · cases hst
      exact .inl hp
    · cases hst
  | dedup d =>
    cases hst
    exact .inl hp

/-- A note that was just created is deleted nowhere. -/
theorem undeleted_created (h : Sound s) (hst : step blank s a = some s') {p : I × V}
    (hp : p ∈ s'.created) (hnew : p ∉ s.created) : Undeleted s' p.1 := by
  obtain hold | ⟨hfresh, hrow⟩ := created_new hst hp
  · exact absurd hold hnew
  · rintro d ⟨hpos, heven⟩
    obtain heq | hone := (hrow d).2
    · rw [heq] at hpos
      exact hfresh (h.rows d p.1 (by omega))
    · omega

theorem spared_step (h : Sound s) (hs : Spared s) (hg : Guarded s a)
    (hst : step blank s a = some s') : Spared s' := by
  intro p hp
  by_cases hold : p ∈ s.created
  · obtain ⟨q, hq, hqp, hqn⟩ := hs p hold
    cases ha : a with
    | dedup d =>
      subst ha
      obtain ⟨r, hr, hrq, hrn, hspared⟩ := hg q hq hqn
      refine ⟨r, created_subset hst hr, hrq.trans hqp, undeleted_step h hrn ?_ hst⟩
      intro e he
      cases he
      exact fun hloser => hspared (Finset.mem_filter.mp hloser).2
    | create _ _ _ _ _ =>
      exact ⟨q, created_subset hst hq, hqp, undeleted_step h hqn (by rw [ha]; rintro _ ⟨⟩) hst⟩
    | edit _ _ _ _ =>
      exact ⟨q, created_subset hst hq, hqp, undeleted_step h hqn (by rw [ha]; rintro _ ⟨⟩) hst⟩
    | deliver _ _ _ =>
      exact ⟨q, created_subset hst hq, hqp, undeleted_step h hqn (by rw [ha]; rintro _ ⟨⟩) hst⟩
  · exact ⟨p, hp, rfl, undeleted_created h hst hp hold⟩

/-- On a device that has received everything, a note that is deleted nowhere is live with
both compared columns proven. -/
theorem Sound.received (h : Sound s) (hx : Settled blank s) {p : I × V} (hp : p ∈ s.created)
    (hn : ¬ Tombstoned (s.notes d) p.1) :
    ∃ cells, ((s.notes d).row p.1).cells = some cells ∧ ∀ col, (cells col).version ≠ none := by
  have hcol : ∀ col, ∃ cells, ((s.notes d).row p.1).cells = some cells ∧
      (cells col).version ≠ none := by
    intro col
    obtain ⟨c, hc, hk, w, hw, rfl⟩ := h.announced p hp col
    have hmerged := hx.exchanged d c hc blank
    have hcl := congrArg Row.cl hmerged
    have hone := h.writes c hc w hw
    have hlife := h.lifespan d p.1
    rw [mergeInsert_cl, hk] at hcl
    unfold Tombstoned at hn
    rw [hk] at hmerged
    exact proven_of_merged (h.wellFormed d p.1) hmerged hw (by omega) (by omega)
  obtain ⟨cells, hcells, _⟩ := hcol .content
  refine ⟨cells, hcells, fun col => ?_⟩
  obtain ⟨cells', hcells', hv⟩ := hcol col
  rw [hcells, Option.some.injEq] at hcells'
  exact hcells' ▸ hv

theorem proven_of_versions {cells : Column → Cell V} (h : ∀ col, (cells col).version ≠ none) :
    proven cells = true := by
  simp [proven, Option.isSome_iff_ne_none, h]

/-- Of two proven notes of a session, one is a loser. -/
theorem losers_of_two {t : Notes I V} {cn cm : Column → Cell V} (hne : n ≠ m)
    (hn : (t.row n).cells = some cn) (hm : (t.row m).cells = some cm)
    (hs : (cn .sessionId).value = (cm .sessionId).value) (hpn : proven cn = true)
    (hpm : proven cm = true) (hkn : n ∈ t.keys) (hkm : m ∈ t.keys) : losers t ≠ ∅ := by
  have hout : outranks t n m = true ∨ outranks t m n = true := by
    simp only [outranks, hn, hm, hs, hpn, hpm, sortsHigher, hne, hne.symm, ne_eq,
      not_false_eq_true, decide_true, Bool.and_true, Bool.true_and, Bool.or_eq_true,
      decide_eq_true_eq, Bool.and_eq_true]
    obtain hlt | heq | hgt := lt_trichotomy (cn .updatedAt).value (cm .updatedAt).value
    · exact .inr (.inl hlt)
    · obtain hid | hid := lt_or_gt_of_ne hne
      · exact .inl (.inr ⟨heq, hid⟩)
      · exact .inr (.inr ⟨heq.symm, hid⟩)
    · exact .inl (.inl hgt)
  obtain hout | hout := hout
  · exact Finset.ne_empty_of_mem (Finset.mem_filter.mpr ⟨hkm, n, hkn, hout⟩)
  · exact Finset.ne_empty_of_mem (Finset.mem_filter.mpr ⟨hkn, m, hkm, hout⟩)

theorem mem_keys_of_cells {t : Notes I V} {cells : Column → Cell V}
    (h : (t.row n).cells = some cells) : n ∈ t.keys := by
  by_contra hn
  rw [t.known n hn] at h
  cases h

theorem Sound.settled (h : Sound s) (hs : Spared s) (hx : Settled blank s) {p : I × V}
    (hp : p ∈ s.created) : ∃ n, ∀ d m, Live (s.notes d) p.2 m ↔ m = n := by
  obtain ⟨q, hq, hqp, hqn⟩ := hs p hp
  refine ⟨q.1, fun d m => ?_⟩
  obtain ⟨cq, hcq, hvq⟩ := h.received hx hq (hqn d)
  have hsq : (cq .sessionId).value = q.2 := by
    have hmem := h.session d q.1 cq hcq (hvq .sessionId)
    exact congrArg Prod.snd (h.unique _ hmem q hq rfl)
  constructor
  · rintro ⟨cm, hcm, hsm⟩
    by_contra hne
    have hcm : ((s.notes d).row m).cells = some cm := hcm
    have hone := live_cl (h.wellFormed d m) (h.lifespan d m) (by rw [hcm]; rfl)
    obtain ⟨r, hr, hrm⟩ := Finset.mem_image.mp (h.rows d m (by omega))
    subst hrm
    obtain ⟨cells, hcells, hv⟩ := h.received (d := d) hx hr (by unfold Tombstoned; omega)
    rw [hcm, Option.some.injEq] at hcells
    subst hcells
    refine losers_of_two hne hcm hcq ?_ (proven_of_versions hv) (proven_of_versions hvq)
      (mem_keys_of_cells hcm) (mem_keys_of_cells hcq) (hx.deduplicated d)
    rw [hsm, hsq, hqp]
  · rintro rfl
    exact ⟨cq, hcq, hsq.trans hqp⟩

theorem mem_losers {t : Notes I V} (h : Outranked t n) : n ∈ losers t := by
  refine Finset.mem_filter.mpr ⟨?_, h⟩
  obtain ⟨w, _, hout⟩ := h
  simp only [outranks] at hout
  split at hout
  · rename_i hn
    exact mem_keys_of_cells hn
  · cases hout

/-- A pass that spares no note of a session leaves it without one: each note it ever had is
deleted on some device. -/
theorem unspared_pass_loses {p : I × V} (h : Sound s)
    (hp : ∀ q ∈ s.created, q.2 = p.2 → Undeleted s q.1 → Outranked (s.notes d) q.1) :
    ∀ q ∈ (s.pass d).created, q.2 = p.2 → ¬ Undeleted (s.pass d) q.1 := by
  intro q hq hqp hn
  by_cases hold : Undeleted s q.1
  · have hloses := mem_losers (hp q hq hqp hold)
    have hdead := hn d
    unfold Tombstoned at hdead
    rw [pass_row, if_pos ⟨rfl, hloses⟩] at hdead
    simp [Row.deleted, h.loser_cl hloses] at hdead
  · refine hold (fun e he => hn e ?_)
    unfold Tombstoned at he ⊢
    rw [pass_row]
    split
    · rename_i heq
      simp [Row.deleted, h.loser_cl heq.2]
    · exact he

section Decidable

variable [Fintype Dev]

instance decidableTombstoned (t : Notes I V) (n : I) : Decidable (Tombstoned t n) :=
  inferInstanceAs (Decidable (_ ∧ _))

instance decidableUndeleted (s : State Dev I V) (n : I) : Decidable (Undeleted s n) :=
  inferInstanceAs (Decidable (∀ d, ¬ Tombstoned (s.notes d) n))

instance decidableGuarded (s : State Dev I V) : ∀ a, Decidable (Guarded s a)
  | .create _ _ _ _ _ => .isTrue trivial
  | .edit _ _ _ _ => .isTrue trivial
  | .deliver _ _ _ => .isTrue trivial
  | .dedup d => inferInstanceAs (Decidable (∀ p ∈ s.created, Undeleted s p.1 →
      ∃ q ∈ s.created, q.2 = p.2 ∧ Undeleted s q.1 ∧ ¬ Outranked (s.notes d) q.1))

instance decidableRowEq : DecidableEq (Row Column V) := fun r r' =>
  decidable_of_iff (r.cl = r'.cl ∧ r.cells = r'.cells) (by cases r; cases r'; simp)

theorem merged_defaults {r : Row Column V} {c : Change I Column V} {f : Column → V}
    (h : mergeInsert r c f = r) (g : Column → V) : mergeInsert r c g = r := by
  have hcl := congrArg Row.cl h
  rw [mergeInsert_cl] at hcl
  exact (mergeInsert_defaults (by omega) g f).trans h

instance decidableSettled (blank : V) (s : State Dev I V) : Decidable (Settled blank s) :=
  decidable_of_iff
    ((∀ d, ∀ c ∈ s.log,
      mergeInsert ((s.notes d).row c.key) c (defaults blank blank) = (s.notes d).row c.key) ∧
      ∀ d, losers (s.notes d) = ∅)
    ⟨fun h => ⟨fun d c hc _ => merged_defaults (h.1 d c hc) _, h.2⟩,
      fun h => ⟨fun d c hc => h.exchanged d c hc blank, h.deduplicated⟩⟩

end Decidable

section Runs

/-- Every clock entry of a note as it was inserted reaches a device. -/
def deliverNote (d : Bool) (n session content now : Nat) : List (Action Bool Nat Nat) :=
  [Column.sessionId, .content, .updatedAt].map (fun col =>
    .deliver d ⟨n, 1, some ⟨col, noteValues session content now col, 1⟩⟩ now)

/-- Both devices have both notes before either runs the pass. -/
def agreeing : List (Action Bool Nat Nat) :=
  [.create false 1 7 10 100, .create true 2 7 20 101] ++ deliverNote true 1 7 10 100 ++
    deliverNote false 2 7 20 101 ++ [.dedup true, .dedup false]

/-- The first device has edited its note, which the second has only as it was inserted. -/
def disagreeing : List (Action Bool Nat Nat) :=
  [.create false 1 7 10 100, .create true 2 7 20 101, .edit false 1 11 102] ++
    deliverNote true 1 7 10 100 ++ [.dedup true] ++ deliverNote false 2 7 20 101 ++
    [.dedup false, .deliver false ⟨1, 2, none⟩ 103, .deliver true ⟨2, 2, none⟩ 103]

end Runs

end YapStack.Sync.Uniqueness
