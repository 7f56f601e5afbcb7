import YapStack.Recording.Peers

set_option linter.unusedSectionVars false

namespace YapStack.Recording.Peers

open YapStack.Sync.Crr

variable {Key : Type} [DecidableEq Key] {n : ℕ}
variable {rows : Fin n → SessionRow} {history : Column → List (Write n)}
variable {sent : Change Key Column Value → Prop}

/-- The cell holds a default, or what a write of its version wrote. -/
def Known (history : List (Write n)) (col : Column) (c : Cell Value) : Prop :=
  match c.version with
  | none => c.value = default col
  | some v => ∃ w ∈ history, w.version = v ∧ w.value = c.value

/-- What the devices and the changes on their way hold of one session, when its columns were
written one version after the other. -/
structure Linear (rows : Fin n → SessionRow) (history : Column → List (Write n))
    (sent : Change Key Column Value → Prop) : Prop where
  cl_le : ∀ d, (rows d).cl ≤ 2
  present : ∀ d, (rows d).cells.isSome = true ↔ (rows d).cl = 1
  born : ∀ d, 0 < (rows d).cl → ∀ col, history col ≠ []
  numbered : ∀ col i w, (history col)[i]? = some w → w.version = i + 1
  known : ∀ d cells, (rows d).cells = some cells → ∀ col, Known (history col) col (cells col)
  clocked : ∀ d cells, (rows d).cells = some cells → ∃ col, (cells col).version ≠ none
  kept : ∀ col, ∀ w ∈ history col, (rows w.device).cl = 2 ∨
    ∃ cells v, (rows w.device).cells = some cells ∧ (cells col).version = some v ∧ w.version ≤ v
  succession : ∀ w ∈ history .status, w.value = .recording →
    ∀ w' ∈ history .status, w'.version = w.version + 1 → w'.device = w.device
  stamps : ∀ w ∈ history .owner, w.value = .device w.device
  stampers : ∀ w ∈ history .owner, ∃ w' ∈ history .status, w'.device = w.device
  sent : ∀ c, sent c →
    (c.cl = 1 ∧ ∃ u, c.write = some u ∧
      ∃ w ∈ history u.column, w.version = u.version ∧ w.value = u.value) ∨
    (c.cl = 2 ∧ c.write = none ∧ ∃ d, (rows d).cl = 2)

/-- The device has the last version of both columns, and no device has deleted the session. -/
structure UpToDate (rows : Fin n → SessionRow) (history : Column → List (Write n)) (d : Fin n)
    (cells : Column → Cell Value) : Prop where
  alive : ∀ e, (rows e).cl ≤ 1
  has : (rows d).cells = some cells
  last : ∀ col, (cells col).version = some (history col).length

/-- The last write of the session's state is this device's `recording`. -/
structure Recorder (rows : Fin n → SessionRow) (history : Column → List (Write n)) (d : Fin n)
    (cells : Column → Cell Value) : Prop extends UpToDate rows history d cells where
  recording : (cells .status).value = .recording
  own : (cells .owner).value = .device d
  author : ∀ w ∈ history .status, w.version = (history .status).length → w.device = d

namespace Linear

variable {d : Fin n} {cells : Column → Cell Value} {col : Column}

theorem version_bounds (h : Linear rows history sent) {w : Write n} (hw : w ∈ history col) :
    1 ≤ w.version ∧ w.version ≤ (history col).length := by
  obtain ⟨i, hi⟩ := List.mem_iff_getElem?.mp hw
  have hlt := (List.getElem?_eq_some_iff.mp hi).1
  have hv := h.numbered col i w hi
  omega

theorem version_unique (h : Linear rows history sent) {w w' : Write n} (hw : w ∈ history col)
    (hw' : w' ∈ history col) (he : w.version = w'.version) : w = w' := by
  obtain ⟨i, hi⟩ := List.mem_iff_getElem?.mp hw
  obtain ⟨j, hj⟩ := List.mem_iff_getElem?.mp hw'
  have hv := h.numbered col i w hi
  have hv' := h.numbered col j w' hj
  have hij : i = j := by omega
  subst hij
  exact Option.some.inj (hi.symm.trans hj)

theorem exists_version (h : Linear rows history sent) (col : Column) {v : ℕ} (hpos : 1 ≤ v)
    (hle : v ≤ (history col).length) : ∃ w ∈ history col, w.version = v := by
  have hlt : v - 1 < (history col).length := by omega
  refine ⟨(history col)[v - 1], List.getElem_mem hlt, ?_⟩
  rw [h.numbered col (v - 1) _ (List.getElem?_eq_getElem hlt)]
  omega

theorem known_le (h : Linear rows history sent) (hc : (rows d).cells = some cells) {v : ℕ}
    (hv : (cells col).version = some v) : v ≤ (history col).length := by
  have hknown := h.known d cells hc col
  simp only [Known, hv] at hknown
  obtain ⟨w, hw, rfl, -⟩ := hknown
  exact (h.version_bounds hw).2

theorem cl_eq_one (h : Linear rows history sent) (hc : (rows d).cells = some cells) :
    (rows d).cl = 1 := (h.present d).mp (by rw [hc]; rfl)

/-- A device that wrote to a session it still has is at least as far as its write. -/
theorem kept_of_cells (h : Linear rows history sent) {w : Write n} (hw : w ∈ history col)
    (hd : w.device = d) (hc : (rows d).cells = some cells) :
    ∃ v, (cells col).version = some v ∧ w.version ≤ v := by
  subst hd
  rcases h.kept col w hw with hdead | ⟨cells', v, hc', hv, hle⟩
  · have hone := h.cl_eq_one hc
    omega
  · rw [hc, Option.some.injEq] at hc'
    subst hc'
    exact ⟨v, hv, hle⟩

/-- A device that is at least as far as every other one has the last version. -/
theorem upToDate_of_dominates (h : Linear rows history sent) (hc : (rows d).cells = some cells)
    (hcl : ∀ e, (rows e).cl ≤ (rows d).cl)
    (hv : ∀ e cells' col v, (rows e).cells = some cells' → (cells' col).version = some v →
      v ≤ ((cells col).version).getD 0) : UpToDate rows history d cells := by
  have hone := h.cl_eq_one hc
  refine ⟨fun e => hone ▸ hcl e, hc, fun col => ?_⟩
  have hpos : 1 ≤ (history col).length :=
    List.length_pos_iff.mpr (h.born d (by omega) col)
  obtain ⟨w, hw, hlast⟩ := h.exists_version col hpos (Nat.le_refl _)
  rcases h.kept col w hw with hdead | ⟨cells', v, hc', hv', hle⟩
  · have := hcl w.device
    omega
  · have hge := hv w.device cells' col v hc' hv'
    cases hown : (cells col).version with
    | none =>
      rw [hown, Option.getD_none] at hge
      omega
    | some u =>
      rw [hown, Option.getD_some] at hge
      have hle' := h.known_le hc hown
      rw [Option.some.injEq]
      omega

/-- A row that shows a device's own recording holds the last write. -/
theorem last_of_own_recording (h : Linear rows history sent) (hc : (rows d).cells = some cells)
    (hrec : (cells .status).value = .recording) {w : Write n} (hw : w ∈ history .status)
    (hd : w.device = d) (hv : (cells .status).version = some w.version) :
    w.version = (history .status).length := by
  have hle := (h.version_bounds hw).2
  by_contra hne
  have hknown := h.known d cells hc .status
  simp only [Known, hv] at hknown
  obtain ⟨w₁, hw₁, hsame, hval⟩ := hknown
  obtain rfl := h.version_unique hw₁ hw hsame
  obtain ⟨w', hw', hnext⟩ := h.exists_version .status (v := w₁.version + 1)
    (by omega) (by omega)
  have hdev := h.succession w₁ hw (hval.trans hrec) w' hw' hnext
  obtain ⟨v, hv', hge⟩ := h.kept_of_cells hw' (hdev.trans hd) hc
  rw [hv, Option.some.injEq] at hv'
  omega

theorem known_append {h h' : List (Write n)} {c : Cell Value} (hk : Known h col c) :
    Known (h ++ h') col c := by
  unfold Known at hk ⊢
  split
  · rename_i hnone
    simpa only [hnone] using hk
  · rename_i v hv
    simp only [hv] at hk
    obtain ⟨w, hw, hk⟩ := hk
    exact ⟨w, List.mem_append_left _ hw, hk⟩

/-- A write on top of the last version of a column. -/
def Advances (history history' : Column → List (Write n)) (d : Fin n)
    (cells cells' : Column → Cell Value) (col : Column) : Prop :=
  (cells' col = cells col ∧ history' col = history col) ∨
  ∃ x, (cells col).version = some (history col).length ∧
    cells' col = ⟨x, some ((history col).length + 1)⟩ ∧
    history' col = history col ++ [⟨d, x, (history col).length + 1⟩]

theorem Advances.subset {history' : Column → List (Write n)} {cells' : Column → Cell Value}
    (ha : Advances history history' d cells cells' col) {w : Write n} (hw : w ∈ history col) :
    w ∈ history' col := by
  rcases ha with ⟨-, he⟩ | ⟨x, -, -, he⟩
  · rwa [he]
  · rw [he]
    exact List.mem_append_left _ hw

theorem advance (h : Linear rows history sent) {history' : Column → List (Write n)}
    {cells' : Column → Cell Value} (hc : (rows d).cells = some cells)
    (ha : ∀ col, Advances history history' d cells cells' col)
    (hnext : ∀ w ∈ history .status, w.version = (history .status).length →
      w.value = .recording → w.device = d)
    (hstamp : ∀ w ∈ history' .owner, w ∉ history .owner →
      w.value = .device d ∧ ∃ w' ∈ history' .status, w'.device = d) :
    Linear (Function.update rows d ⟨(rows d).cl, some cells'⟩) history' sent := by
  have hcl : ∀ e, (Function.update rows d ⟨(rows d).cl, some cells'⟩ e).cl = (rows e).cl := by
    intro e
    by_cases he : e = d
    · subst he
      rw [Function.update_self]
    · rw [Function.update_of_ne he]
  have hone := h.cl_eq_one hc
  have hauthor : ∀ w ∈ history' .owner, w ∉ history .owner → w.device = d := by
    intro w hw hnew
    rcases ha .owner with ⟨-, hh⟩ | ⟨x, -, -, hh⟩
    · exact absurd (hh ▸ hw) hnew
    · rw [hh, List.mem_append, List.mem_singleton] at hw
      rcases hw with hw | rfl
      · exact absurd hw hnew
      · rfl
  constructor
  · intro e
    rw [hcl]
    exact h.cl_le e
  · intro e
    by_cases he : e = d
    · subst he
      simp [hone]
    · rw [Function.update_of_ne he]
      exact h.present e
  · intro e hpos col hnil
    rw [hcl] at hpos
    obtain ⟨w, hw⟩ := List.exists_mem_of_ne_nil _ (h.born e hpos col)
    have hw' := (ha col).subset hw
    rw [hnil] at hw'
    cases hw'
  · intro col i w hi
    rcases ha col with ⟨-, he⟩ | ⟨x, -, -, he⟩
    · rw [he] at hi
      exact h.numbered col i w hi
    · rw [he] at hi
      by_cases hlt : i < (history col).length
      · rw [List.getElem?_append_left hlt] at hi
        exact h.numbered col i w hi
      · rw [List.getElem?_append_right (by omega), List.getElem?_singleton] at hi
        split at hi
        · rename_i hz
          cases hi
          dsimp only
          omega
        · cases hi
  · intro e cells₁ hc₁ col
    by_cases he : e = d
    · subst he
      rw [Function.update_self] at hc₁
      cases hc₁
      rcases ha col with ⟨hcell, hh⟩ | ⟨x, -, hcell, hh⟩
      · rw [hcell, hh]
        exact h.known e cells hc col
      · rw [hcell, hh]
        exact ⟨_, List.mem_append_right _ (List.mem_singleton_self _), rfl, rfl⟩
    · rw [Function.update_of_ne he] at hc₁
      have hk := h.known e cells₁ hc₁ col
      rcases ha col with ⟨-, hh⟩ | ⟨x, -, -, hh⟩
      · rwa [hh]
      · rw [hh]
        exact known_append hk
  · intro e cells₁ hc₁
    by_cases he : e = d
    · subst he
      rw [Function.update_self] at hc₁
      cases hc₁
      obtain ⟨col, hv⟩ := h.clocked e cells hc
      refine ⟨col, ?_⟩
      rcases ha col with ⟨hcell, -⟩ | ⟨x, -, hcell, -⟩
      · rwa [hcell]
      · rw [hcell]
        simp
    · rw [Function.update_of_ne he] at hc₁
      exact h.clocked e cells₁ hc₁
  · intro col w hw
    rw [hcl]
    by_cases he : w.device = d
    · refine .inr ⟨cells', ?_⟩
      rw [he, Function.update_self]
      rcases ha col with ⟨hcell, hh⟩ | ⟨x, hlast, hcell, hh⟩
      · rw [hh] at hw
        obtain ⟨v, hv, hle⟩ := h.kept_of_cells hw he hc
        exact ⟨v, rfl, hcell ▸ hv, hle⟩
      · refine ⟨(history col).length + 1, rfl, by rw [hcell], ?_⟩
        rw [hh, List.mem_append, List.mem_singleton] at hw
        rcases hw with hw | rfl
        · have := (h.version_bounds hw).2
          omega
        · exact Nat.le_refl _
    · rw [Function.update_of_ne he]
      rcases ha col with ⟨-, hh⟩ | ⟨x, -, -, hh⟩
      · rw [hh] at hw
        exact h.kept col w hw
      · rw [hh, List.mem_append, List.mem_singleton] at hw
        rcases hw with hw | rfl
        · exact h.kept col w hw
        · exact absurd rfl he
  · intro w hw hrec w' hw' hv
    rcases ha .status with ⟨-, hh⟩ | ⟨x, -, -, hh⟩
    · rw [hh] at hw hw'
      exact h.succession w hw hrec w' hw' hv
    · rw [hh, List.mem_append, List.mem_singleton] at hw hw'
      rcases hw with hw | rfl
      · rcases hw' with hw' | rfl
        · exact h.succession w hw hrec w' hw' hv
        · dsimp only at hv ⊢
          exact (hnext w hw (by omega) hrec).symm
      · rcases hw' with hw' | rfl
        · have := (h.version_bounds hw').2
          dsimp only at hv
          omega
        · rfl
  · intro w hw
    by_cases hold : w ∈ history .owner
    · exact h.stamps w hold
    · rw [(hstamp w hw hold).1, hauthor w hw hold]
  · intro w hw
    by_cases hold : w ∈ history .owner
    · obtain ⟨w', hw', hd⟩ := h.stampers w hold
      exact ⟨w', (ha .status).subset hw', hd⟩
    · rw [hauthor w hw hold]
      exact (hstamp w hw hold).2
  · intro c hs
    rcases h.sent c hs with ⟨hc1, u, hu, w, hw, hk⟩ | ⟨hc2, hnone, e, he⟩
    · exact .inl ⟨hc1, u, hu, w, (ha u.column).subset hw, hk⟩
    · exact .inr ⟨hc2, hnone, e, by rw [hcl, he]⟩

/-- What a merge can do to a row. -/
theorem merge_cases (h : Linear rows history sent) {c : Change Key Column Value} (hs : sent c)
    (d : Fin n) :
    mergeInsert (rows d) c default = rows d ∨
    (mergeInsert (rows d) c default = ⟨2, none⟩ ∧ ∃ e, (rows e).cl = 2) ∨
    ∃ u cells, c.write = some u ∧
      mergeInsert (rows d) c default =
        ⟨1, some (Function.update cells u.column ⟨u.value, some u.version⟩)⟩ ∧
      (((rows d).cl = 0 ∧ cells = blank default) ∨
        ((rows d).cells = some cells ∧
          ∀ v, (cells u.column).version = some v → v < u.version)) := by
  have hle := h.cl_le d
  have hpresent := h.present d
  rcases h.sent c hs with ⟨hc1, u, hu, w, hw, hver, hval⟩ | ⟨hc2, hnone, he⟩
  · by_cases hdead : (rows d).cl = 2
    · exact .inl (by simp [mergeInsert, hc1, hdead])
    · by_cases hzero : (rows d).cl = 0
      · have hcells : (rows d).cells = none := by
          rw [← Option.not_isSome_iff_eq_none, hpresent]
          omega
        refine .inr (.inr ⟨u, blank default, hu, ?_, .inl ⟨hzero, rfl⟩⟩)
        simp [mergeInsert, hc1, hu, hzero, hcells, resurrect, Row.put]
      · have hone : (rows d).cl = 1 := by omega
        obtain ⟨cells, hcells⟩ := Option.isSome_iff_exists.mp (hpresent.mpr hone)
        by_cases hwin : didCidWin (cells u.column) u = true
        · refine .inr (.inr ⟨u, cells, hu, ?_, .inr ⟨hcells, fun v hv => ?_⟩⟩)
          · simp [mergeInsert, hc1, hu, hone, hcells, wins, hwin, Row.put]
          · simp only [didCidWin, hv, Bool.or_eq_true, Bool.and_eq_true,
              decide_eq_true_eq] at hwin
            rcases hwin with hlt | ⟨heq, hgreater⟩
            · exact hlt
            · have hk := h.known d cells hcells u.column
              simp only [Known, hv] at hk
              obtain ⟨w', hw', hver', hval'⟩ := hk
              have := h.version_unique hw hw' (by omega)
              rw [← hval, ← hval', this] at hgreater
              exact absurd hgreater (lt_irrefl _)
        · exact .inl (by simp [mergeInsert, hc1, hu, hone, hcells, wins, hwin])
  · by_cases hdead : (rows d).cl = 2
    · exact .inl (by simp [mergeInsert, hc2, hdead])
    · have hlt : ¬ 2 < (rows d).cl := by omega
      have hne : ¬ 2 = (rows d).cl := by omega
      refine .inr (.inl ⟨?_, he⟩)
      simp [mergeInsert, hc2, hlt, hne]

theorem replace (h : Linear rows history sent) {row : SessionRow} (hle : row.cl ≤ 2)
    (hpresent : row.cells.isSome = true ↔ row.cl = 1)
    (hborn : 0 < row.cl → ∀ col, history col ≠ []) (hdead : (rows d).cl = 2 → row.cl = 2)
    (hknown : ∀ cells, row.cells = some cells → ∀ col, Known (history col) col (cells col))
    (hclocked : ∀ cells, row.cells = some cells → ∃ col, (cells col).version ≠ none)
    (hkept : ∀ col, ∀ w ∈ history col, w.device = d → row.cl = 2 ∨
      ∃ cells v, row.cells = some cells ∧ (cells col).version = some v ∧ w.version ≤ v) :
    Linear (Function.update rows d row) history sent := by
  constructor
  · intro e
    by_cases he : e = d
    · simpa only [he, Function.update_self] using hle
    · simpa only [Function.update_of_ne he] using h.cl_le e
  · intro e
    by_cases he : e = d
    · simpa only [he, Function.update_self] using hpresent
    · simpa only [Function.update_of_ne he] using h.present e
  · intro e
    by_cases he : e = d
    · simpa only [he, Function.update_self] using hborn
    · simpa only [Function.update_of_ne he] using h.born e
  · exact h.numbered
  · intro e
    by_cases he : e = d
    · simpa only [he, Function.update_self] using hknown
    · simpa only [Function.update_of_ne he] using h.known e
  · intro e
    by_cases he : e = d
    · simpa only [he, Function.update_self] using hclocked
    · simpa only [Function.update_of_ne he] using h.clocked e
  · intro col w hw
    by_cases he : w.device = d
    · simpa only [he, Function.update_self] using hkept col w hw he
    · simpa only [Function.update_of_ne he] using h.kept col w hw
  · exact h.succession
  · exact h.stamps
  · exact h.stampers
  · intro c hs
    rcases h.sent c hs with hwrite | ⟨hc2, hnone, e, he⟩
    · exact .inl hwrite
    · refine .inr ⟨hc2, hnone, e, ?_⟩
      by_cases hed : e = d
      · subst hed
        rw [Function.update_self]
        exact hdead he
      · rwa [Function.update_of_ne hed]

theorem bury (h : Linear rows history sent) {e : Fin n} (he : 0 < (rows e).cl) (d : Fin n) :
    Linear (Function.update rows d ⟨2, none⟩) history sent := by
  apply h.replace
  · exact Nat.le_refl _
  · simp
  · exact fun _ => h.born e he
  · exact fun _ => rfl
  · rintro _ ⟨⟩
  · rintro _ ⟨⟩
  · exact fun _ _ _ _ => .inl rfl

/-- A merge never takes a column back. -/
theorem merge (h : Linear rows history sent) {c : Change Key Column Value} (hs : sent c)
    (d : Fin n) : Linear (Function.update rows d (mergeInsert (rows d) c default)) history sent := by
  rcases h.merge_cases hs d with hsame | ⟨hdead, e, he⟩ | ⟨u, cells, hu, hput, hfrom⟩
  · rwa [hsame, Function.update_eq_self]
  · have hpos : 0 < (rows e).cl := by omega
    rw [hdead]
    exact h.bury hpos d
  · rw [hput]
    obtain ⟨w, hw, hver, hval⟩ : ∃ w ∈ history u.column, w.version = u.version ∧
        w.value = u.value := by
      rcases h.sent c hs with ⟨-, u', hu', hw⟩ | ⟨-, hnone, -⟩
      · rw [hu, Option.some.injEq] at hu'
        exact hu' ▸ hw
      · rw [hu] at hnone
        cases hnone
    apply h.replace
    · exact Nat.le_succ 1
    · simp
    · intro _
      obtain ⟨hpos, -⟩ := h.version_bounds hw
      rcases h.kept u.column w hw with hd | ⟨cells', v, hc, -, -⟩
      · exact h.born w.device (by omega)
      · exact h.born w.device (by rw [h.cl_eq_one hc]; exact Nat.one_pos)
    · intro hd
      rcases hfrom with ⟨hzero, -⟩ | ⟨hc, -⟩
      · omega
      · have := h.cl_eq_one hc
        omega
    · rintro _ ⟨⟩ col
      by_cases hcol : col = u.column
      · subst hcol
        rw [Function.update_self]
        exact ⟨w, hw, hver, hval⟩
      · rw [Function.update_of_ne hcol]
        rcases hfrom with ⟨-, rfl⟩ | ⟨hc, -⟩
        · exact rfl
        · exact h.known d cells hc col
    · rintro _ ⟨⟩
      refine ⟨u.column, ?_⟩
      rw [Function.update_self]
      exact Option.some_ne_none _
    · intro col w' hw' hd
      rcases hfrom with ⟨hzero, -⟩ | ⟨hc, hlt⟩
      · rcases h.kept col w' hw' with hdead | ⟨cells', v, hc, -, -⟩
        · rw [hd] at hdead
          omega
        · rw [hd] at hc
          have := h.cl_eq_one hc
          omega
      · obtain ⟨v, hv, hle⟩ := h.kept_of_cells hw' hd hc
        refine .inr ⟨Function.update cells u.column ⟨u.value, some u.version⟩, ?_⟩
        by_cases hcol : col = u.column
        · subst hcol
          have := hlt v hv
          exact ⟨u.version, rfl, by rw [Function.update_self], by omega⟩
        · exact ⟨v, rfl, by rw [Function.update_of_ne hcol]; exact hv, hle⟩

/-- The session's row is inserted under a fresh key. -/
theorem insert (h : Linear rows history sent) (hfresh : ∀ col, history col = []) (d : Fin n) :
    Linear (Function.update rows d (.inserted (State.insertedValues d)))
      (fun col => [⟨d, State.insertedValues d col, 1⟩]) sent := by
  have hzero : ∀ e, (rows e).cl = 0 := by
    intro e
    by_contra hpos
    exact h.born e (by omega) .status (hfresh .status)
  have hnone : ∀ e, (rows e).cells = none := by
    intro e
    rw [← Option.not_isSome_iff_eq_none, h.present, hzero]
    omega
  constructor
  · intro e
    rw [Function.update_apply]
    split
    · exact Nat.le_succ 1
    · exact h.cl_le e
  · intro e
    rw [Function.update_apply]
    split
    · simp [Row.inserted]
    · exact h.present e
  · exact fun _ _ _ => List.cons_ne_nil _ _
  · intro col i w hi
    rw [List.getElem?_singleton] at hi
    split at hi
    · cases hi
      dsimp only
      omega
    · cases hi
  · intro e cells hc col
    rw [Function.update_apply] at hc
    split at hc
    · cases hc
      exact ⟨_, List.mem_singleton_self _, rfl, rfl⟩
    · rw [hnone] at hc
      cases hc
  · intro e cells hc
    rw [Function.update_apply] at hc
    split at hc
    · cases hc
      exact ⟨.status, Option.some_ne_none _⟩
    · rw [hnone] at hc
      cases hc
  · intro col w hw
    rw [List.mem_singleton] at hw
    subst hw
    refine .inr ⟨fun col => ⟨State.insertedValues d col, some 1⟩, 1, ?_⟩
    rw [Function.update_self]
    exact ⟨rfl, rfl, Nat.le_refl _⟩
  · intro w hw _ w' hw' _
    rw [List.mem_singleton] at hw hw'
    rw [hw, hw']
  · intro w hw
    rw [List.mem_singleton] at hw
    subst hw
    rfl
  · intro w hw
    rw [List.mem_singleton] at hw
    subst hw
    exact ⟨_, List.mem_singleton_self _, rfl⟩
  · intro c hs
    rcases h.sent c hs with ⟨-, u, -, w, hw, -⟩ | ⟨-, -, e, he⟩
    · rw [hfresh] at hw
      cases hw
    · rw [hzero] at he
      cases he

/-- A capture sends what its device's row holds. -/
theorem capture (h : Linear rows history sent) {sent' : Change Key Column Value → Prop}
    (hs : ∀ c, sent' c → sent c ∨
      (∃ d, c.cl = (rows d).cl ∧ c.write = none ∧ (rows d).cells = none ∧ 0 < (rows d).cl) ∨
      ∃ d cells col v, (rows d).cells = some cells ∧ (cells col).version = some v ∧
        c.cl = (rows d).cl ∧ c.write = some ⟨col, (cells col).value, v⟩) :
    Linear rows history sent' := by
  refine { h with sent := fun c hc => ?_ }
  rcases hs c hc with hold | ⟨d, hcl, hw, hnone, hpos⟩ | ⟨d, cells, col, v, hcells, hv, hcl, hw⟩
  · exact h.sent c hold
  · have hle := h.cl_le d
    have hodd : (rows d).cl ≠ 1 := by
      rw [← Option.not_isSome_iff_eq_none, h.present] at hnone
      exact hnone
    exact .inr ⟨by omega, hw, d, by omega⟩
  · have hk := h.known d cells hcells col
    simp only [Known, hv] at hk
    exact .inl ⟨hcl.trans (h.cl_eq_one hcells), _, hw, hk⟩

/-- A row that a boot takes for its own, last written by its device, is the last word. -/
theorem last_of_swept (h : Linear rows history sent) (hc : (rows d).cells = some cells)
    (hrec : (cells .status).value = .recording)
    (hown : (cells .owner).value = .null ∨ (cells .owner).value = .device d)
    (hwrote : ∀ v, (cells .status).version = some v →
      ∃ w ∈ history .status, w.device = d ∧ w.version = v) :
    (cells .status).version = some (history .status).length ∧
      ∀ w ∈ history .status, w.version = (history .status).length → w.device = d := by
  cases hv : (cells .status).version with
  | none =>
    -- only the owner has a clock, so this device's own stamp would be in the history
    obtain ⟨col, hcol⟩ := h.clocked d cells hc
    cases col with
    | status => exact absurd hv hcol
    | owner =>
      obtain ⟨u, hu⟩ := Option.ne_none_iff_exists'.mp hcol
      have hk := h.known d cells hc .owner
      simp only [Known, hu] at hk
      obtain ⟨w, hw, -, hval⟩ := hk
      have hstamp := h.stamps w hw
      rw [hval] at hstamp
      rw [hstamp] at hown
      have hd : w.device = d := by
        rcases hown with hnull | hdev
        · cases hnull
        · exact Fin.ext (Value.device.inj hdev)
      obtain ⟨w', hw', hd'⟩ := h.stampers w hw
      obtain ⟨u', hu', -⟩ := h.kept_of_cells hw' (hd'.trans hd) hc
      rw [hv] at hu'
      cases hu'
  | some v =>
    obtain ⟨w, hw, hd, rfl⟩ := hwrote v hv
    have hlast := h.last_of_own_recording hc hrec hw hd hv
    refine ⟨by rw [hlast], fun w' hw' hlast' => ?_⟩
    rw [h.version_unique hw' hw (hlast'.trans hlast.symm), hd]

end Linear

end YapStack.Recording.Peers
