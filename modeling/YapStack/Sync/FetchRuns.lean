import Mathlib.Data.List.Perm.Basic
import YapStack.Sync.FetchRegistry

set_option linter.unusedSectionVars false

namespace YapStack.Fetch

variable {Part : Type} [DecidableEq Part]

namespace Run

/-- A starter of this class that was neither promoted nor removed. -/
def kept (u : Run Part) (high : Bool) (k : ℕ) : Bool :=
  u.classes[k]? = some high ∧ k ∉ u.promoted ∧ k ∉ u.removed

def line (u : Run Part) : List ℕ :=
  u.started ++ u.registry.queue.map (·.starter)

end Run

structure Sound (u : Run Part) : Prop where
  bounded : u.registry.running ≤ u.registry.cap
  busy : u.registry.queue ≠ [] → u.registry.running = u.registry.cap
  lanes : Lanes.InLanes (·.high) u.registry.queue
  parts : (u.registry.queue.map (·.partId)).Nodup
  queued : ∀ q ∈ u.registry.queue, u.registry.slots q.partId = some ⟨true⟩
  permits : u.registry.running + u.finished.length = u.started.length
  once : (u.line ++ u.removed).Perm (List.range u.classes.length)
  class_of : ∀ q ∈ u.registry.queue,
    q.high = true ↔ u.classes[q.starter]? = some true ∨ q.starter ∈ u.promoted
  promoted : ∀ k ∈ u.promoted, k < u.classes.length
  ordered : ∀ high, (u.line.filter (u.kept high)).Pairwise (· < ·)
  reports : u.finished.Nodup ∧ u.finished ⊆ u.started

variable {u v : Run Part} {partId : Part} {high : Bool} {k : ℕ}

theorem Sound.line_lt (h : Sound u) (hk : k ∈ u.line) : k < u.classes.length :=
  List.mem_range.mp (h.once.subset (List.mem_append_left _ hk))

theorem Sound.removed_lt (h : Sound u) (hk : k ∈ u.removed) : k < u.classes.length :=
  List.mem_range.mp (h.once.subset (List.mem_append_right _ hk))

/-- A number that joins the line is larger than all before it, so it may stand
before those of other classes only. -/
theorem pairwise_insert {A B : List ℕ} {P Q : ℕ → Bool} {n : ℕ}
    (h : ((A ++ B).filter P).Pairwise (· < ·)) (hlt : ∀ k ∈ A ++ B, k < n)
    (hPQ : ∀ k < n, Q k = P k) (hB : Q n = true → ∀ k ∈ B, P k = false) :
    ((A ++ n :: B).filter Q).Pairwise (· < ·) := by
  have hA : A.filter Q = A.filter P :=
    List.filter_congr fun k hk => hPQ k (hlt k (List.mem_append_left _ hk))
  have hB' : B.filter Q = B.filter P :=
    List.filter_congr fun k hk => hPQ k (hlt k (List.mem_append_right _ hk))
  rw [List.filter_append] at h ⊢
  by_cases hn : Q n = true
  · have hnil : B.filter P = [] := by
      rw [List.filter_eq_nil_iff]
      exact fun k hk => by simp [hB hn k hk]
    rw [List.filter_cons_of_pos hn, hA, hB', hnil]
    rw [hnil, List.append_nil] at h
    refine List.pairwise_append.mpr ⟨h, List.pairwise_singleton _ _, ?_⟩
    intro k hk m hm
    rw [List.mem_singleton.mp hm]
    exact hlt k (List.mem_append_left _ (List.mem_filter.mp hk).1)
  · rw [List.filter_cons_of_neg hn, hA, hB']
    exact h

theorem filter_middle {P : ℕ → Bool} {n : ℕ} (hn : P n = false) (A B : List ℕ) :
    (A ++ n :: B).filter P = (A ++ B).filter P := by
  rw [List.filter_append, List.filter_append, List.filter_cons_of_neg (by simp [hn])]

theorem kept_of_grown (hc : v.classes = u.classes) (hp : u.promoted ⊆ v.promoted)
    (hr : u.removed ⊆ v.removed) (hk : v.kept high k = true) : u.kept high k = true := by
  obtain ⟨hcls, hnp, hnr⟩ := of_decide_eq_true hk
  exact decide_eq_true ⟨hc ▸ hcls, fun hm => hnp (hp hm), fun hm => hnr (hr hm)⟩

/-- What a call does to the line when it admits no starter: what it marks as
promoted or removed loses its place, the others keep theirs. -/
theorem Sound.ordered_of_grown (h : Sound u) (hc : v.classes = u.classes)
    (hp : u.promoted ⊆ v.promoted) (hr : u.removed ⊆ v.removed)
    (hl : ∀ high, List.Sublist (v.line.filter (v.kept high)) (u.line.filter (v.kept high))) :
    ∀ high, (v.line.filter (v.kept high)).Pairwise (· < ·) := by
  intro high
  have hmono : List.Sublist (u.line.filter (v.kept high)) (u.line.filter (u.kept high)) :=
    List.monotone_filter_right u.line fun k hk => kept_of_grown hc hp hr hk
  exact (h.ordered high).sublist ((hl high).trans hmono)

/-- An accepted submission, where `A` and `B` are the line before and behind it. -/
theorem Sound.admitted (h : Sound u) (high : Bool) {A B : List ℕ} (hline : u.line = A ++ B)
    (hv : v.line = A ++ u.classes.length :: B) (hc : v.classes = u.classes ++ [high])
    (hp : v.promoted = u.promoted) (hr : v.removed = u.removed)
    (hB : high = true → ∀ k ∈ B, u.kept true k = false) (hB' : high = false → B = []) :
    (v.line ++ v.removed).Perm (List.range v.classes.length) ∧
      ∀ high, (v.line.filter (v.kept high)).Pairwise (· < ·) := by
  refine ⟨?_, fun cls => ?_⟩
  · rw [hv, hc, hr, List.length_append, List.length_singleton, List.range_succ]
    have hmid : (A ++ u.classes.length :: B ++ u.removed).Perm
        (u.classes.length :: (u.line ++ u.removed)) := by
      rw [hline, List.append_assoc, List.cons_append, List.append_assoc]
      exact List.perm_middle
    exact hmid.trans ((h.once.cons _).trans (List.perm_append_singleton _ _).symm)
  · rw [hv]
    refine pairwise_insert (P := u.kept cls) (hline ▸ h.ordered cls)
      (fun k hk => h.line_lt (hline ▸ hk)) ?_ ?_
    · intro k hk
      simp only [Run.kept, hc, hp, hr, List.getElem?_append_left hk]
    · intro hn k hk
      obtain ⟨hcls, -⟩ := of_decide_eq_true hn
      rw [hc, List.getElem?_concat_length, Option.some.injEq] at hcls
      subst hcls
      cases high with
      | true => exact hB rfl k hk
      | false => simp [hB' rfl] at hk

theorem Sound.class_of_append (h : Sound u) {q : QueuedFetch Part ℕ}
    (hq : q ∈ u.registry.queue) (high : Bool) :
    q.high = true ↔ (u.classes ++ [high])[q.starter]? = some true ∨ q.starter ∈ u.promoted := by
  have hlt : q.starter < u.classes.length :=
    h.line_lt (List.mem_append_right _ (List.mem_map_of_mem hq))
  rw [List.getElem?_append_left hlt]
  exact h.class_of q hq

/-- A slot of its own part is set, and that part is not in the queue. -/
theorem Sound.not_queued (h : Sound u) (hnone : u.registry.slots partId = none) :
    ∀ q ∈ u.registry.queue, q.partId ≠ partId := by
  intro q hq he
  have hs := h.queued q hq
  rw [he, hnone] at hs
  exact absurd hs (by simp)

/-- The queue after a submission that found no permit, split at its new entry. -/
theorem Sound.enqueued (h : Sound u) (entry : QueuedFetch Part ℕ) :
    ∃ A B, u.registry.queue = A ++ B ∧
      (entry.high = true → ∀ q ∈ B, q.high = false) ∧ (entry.high = false → B = []) ∧
      Lanes.InLanes (·.high) (A ++ entry :: B) ∧
      (if entry.high then
          u.registry.queue.insertIdx (Registry.highSegmentEnd u.registry.queue) entry
        else u.registry.queue ++ [entry]) = A ++ entry :: B := by
  cases hh : entry.high with
  | true =>
    obtain ⟨hs, ns, hsplit⟩ := h.lanes
    refine ⟨hs, ns, hsplit.1, fun _ => hsplit.2.2, by simp, hsplit.insert hh, ?_⟩
    exact hsplit.insertIdx entry
  | false =>
    refine ⟨u.registry.queue, [], by simp, by simp, fun _ => rfl, h.lanes.push hh, ?_⟩
    simp

theorem Sound.slots_update (h : Sound u) (hnone : u.registry.slots partId = none)
    (s : Option FetchSlot) :
    ∀ q ∈ u.registry.queue,
      Function.update u.registry.slots partId s q.partId = some ⟨true⟩ := by
  intro q hq
  rw [Function.update_of_ne (h.not_queued hnone q hq)]
  exact h.queued q hq

theorem Sound.promoted_append (h : Sound u) (high : Bool) :
    ∀ k ∈ u.promoted, k < (u.classes ++ [high]).length := by
  intro k hk
  have := h.promoted k hk
  simp only [List.length_append, List.length_singleton]
  omega

/-- A permit is free, so nothing waits: the starter is handed out. -/
theorem Sound.start (h : Sound u) (high : Bool) (hnone : u.registry.slots partId = none)
    (hrun : u.registry.running < u.registry.cap) :
    Sound { u with
      registry := { u.registry with
        slots := Function.update u.registry.slots partId (some ⟨false⟩)
        running := u.registry.running + 1 }
      classes := u.classes ++ [high]
      started := u.started ++ [u.classes.length] } := by
  have hnil : u.registry.queue = [] := by
    by_contra hq
    have := h.busy hq
    omega
  obtain ⟨v, hv⟩ : ∃ v, v = { u with
      registry := { u.registry with
        slots := Function.update u.registry.slots partId (some ⟨false⟩)
        running := u.registry.running + 1 }
      classes := u.classes ++ [high]
      started := u.started ++ [u.classes.length] } := ⟨_, rfl⟩
  obtain ⟨honce, hord⟩ := h.admitted (v := v) high (A := u.started) (B := [])
    (by simp [Run.line, hnil]) (by simp [hv, Run.line, hnil]) (by rw [hv]) (by rw [hv])
    (by rw [hv]) (by simp) (fun _ => rfl)
  subst hv
  refine ⟨hrun, ?_, h.lanes, h.parts, h.slots_update hnone _, ?_, honce, ?_,
    h.promoted_append high, hord,
    h.reports.1, fun _ hk => List.mem_append_left _ (h.reports.2 hk)⟩
  · exact fun hq => absurd hnil hq
  · have hp := h.permits
    simp only [List.length_append, List.length_singleton]
    omega
  · exact fun q hq => h.class_of_append hq high

theorem Sound.wait (h : Sound u) (entry : QueuedFetch Part ℕ)
    (hnone : u.registry.slots entry.partId = none)
    (hstarter : entry.starter = u.classes.length)
    (hrun : ¬u.registry.running < u.registry.cap) :
    Sound { u with
      registry := { u.registry with
        slots := Function.update u.registry.slots entry.partId (some ⟨true⟩)
        queue :=
          if entry.high then
            u.registry.queue.insertIdx (Registry.highSegmentEnd u.registry.queue) entry
          else u.registry.queue ++ [entry] }
      classes := u.classes ++ [entry.high] } := by
  obtain ⟨A, B, hAB, hB, hB', hlanes, hqueue⟩ := h.enqueued entry
  rw [hqueue]
  obtain ⟨v, hv⟩ : ∃ v, v = { u with
      registry := { u.registry with
        slots := Function.update u.registry.slots entry.partId (some ⟨true⟩)
        queue := A ++ entry :: B }
      classes := u.classes ++ [entry.high] } := ⟨_, rfl⟩
  have hmem : ∀ q, q ∈ A ++ entry :: B ↔ q = entry ∨ q ∈ u.registry.queue := by
    intro q
    rw [hAB]
    exact List.perm_middle.mem_iff.trans List.mem_cons
  have hkept : entry.high = true → ∀ k ∈ B.map (·.starter), u.kept true k = false := by
    intro hh k hk
    obtain ⟨q, hq, rfl⟩ := List.mem_map.mp hk
    have hlow := h.class_of q (hAB ▸ List.mem_append_right A hq)
    rw [hB hh q hq] at hlow
    apply decide_eq_false
    rintro ⟨hc, -, -⟩
    exact absurd (hlow.mpr (.inl hc)) (by simp)
  obtain ⟨honce, hord⟩ := h.admitted (v := v) entry.high
    (A := u.started ++ A.map (·.starter)) (by simp [Run.line, hAB])
    (by simp [hv, Run.line, hstarter]) (by rw [hv]) (by rw [hv]) (by rw [hv]) hkept
    (fun hh => by rw [hB' hh, List.map_nil])
  subst hv
  refine ⟨h.bounded, fun _ => ?_, hlanes, ?_, ?_, h.permits, honce, ?_,
    h.promoted_append entry.high, hord, h.reports⟩
  · have := h.bounded
    simp only
    omega
  · have hp : ((A ++ entry :: B).map (·.partId)).Perm
        (entry.partId :: u.registry.queue.map (·.partId)) := by
      rw [hAB]
      exact List.perm_middle.map _
    refine hp.nodup_iff.mpr (List.nodup_cons.mpr ⟨?_, h.parts⟩)
    intro hin
    obtain ⟨q, hq, he⟩ := List.mem_map.mp hin
    exact h.not_queued hnone q hq he
  · intro q hq
    obtain rfl | hq := (hmem q).mp hq
    · exact Function.update_self ..
    · exact h.slots_update hnone _ q hq
  · intro q hq
    obtain rfl | hq := (hmem q).mp hq
    · have hnew : u.classes.length ∉ u.promoted := fun hp => absurd (h.promoted _ hp) (by simp)
      simp [hstarter, hnew]
    · exact h.class_of_append hq entry.high

theorem submitted_sound (h : Sound u) (partId : Part) (high : Bool) :
    Sound (u.submitted partId high
      (u.registry.submitWithPriority partId u.classes.length high)) := by
  unfold Run.submitted Registry.submitWithPriority Registry.isActive
  cases hslot : u.registry.slots partId with
  | some s => simpa using h
  | none =>
    by_cases hrun : u.registry.running < u.registry.cap
    · simpa only [hrun, if_true, Option.isSome_none, Bool.false_eq_true, if_false,
        Option.toList_some] using h.start high hslot hrun
    · simpa only [hrun, if_false, Option.isSome_none, Bool.false_eq_true,
        Option.toList_none, List.append_nil] using
        h.wait ⟨partId, u.classes.length, high⟩ hslot rfl hrun

/-- The queue around its one entry for a part. -/
theorem Sound.waiting_eq (h : Sound u) {xs ys : List (QueuedFetch Part ℕ)}
    {q : QueuedFetch Part ℕ} (hq : u.registry.queue = xs ++ q :: ys) :
    u.registry.waiting q.partId = [q.starter] := by
  have hnd := h.parts
  rw [hq] at hnd
  have hne : ∀ x ∈ xs ++ ys, x.partId ≠ q.partId := by
    intro x hx he
    have hp : (xs ++ q :: ys).Perm (q :: (xs ++ ys)) := List.perm_middle
    exact (List.nodup_cons.mp ((hp.map (·.partId)).nodup_iff.mp hnd)).1 (List.mem_map.mpr ⟨x, hx, he⟩)
  have hxs : xs.filter (fun x => x.partId = q.partId) = [] := by
    rw [List.filter_eq_nil_iff]
    exact fun x hx => by simpa using hne x (List.mem_append_left _ hx)
  have hys : ys.filter (fun x => x.partId = q.partId) = [] := by
    rw [List.filter_eq_nil_iff]
    exact fun x hx => by simpa using hne x (List.mem_append_right _ hx)
  rw [Registry.waiting, hq, List.filter_append, hxs, List.nil_append,
    List.filter_cons_of_pos (by simp), hys]
  rfl

theorem Sound.starter_ne (h : Sound u) {xs ys : List (QueuedFetch Part ℕ)}
    {q x : QueuedFetch Part ℕ} (hq : u.registry.queue = xs ++ q :: ys) (hx : x ∈ xs ++ ys) :
    x.starter ≠ q.starter := by
  have hnd : u.line.Nodup :=
    (h.once.nodup_iff.mpr List.nodup_range).sublist (List.sublist_append_left _ _)
  have hnd' := (List.nodup_append.mp hnd).2.1
  rw [hq] at hnd'
  have hp : (xs ++ q :: ys).Perm (q :: (xs ++ ys)) := List.perm_middle
  intro he
  exact (List.nodup_cons.mp ((hp.map (·.starter)).nodup_iff.mp hnd')).1 (List.mem_map.mpr ⟨x, hx, he⟩)

/-- Entries whose starter does not count may move in the queue. -/
theorem filter_moved {P : ℕ → Bool} {xs ys hs ns : List (QueuedFetch Part ℕ)}
    (q q' : QueuedFetch Part ℕ) (hP : P q.starter = false) (hs' : q'.starter = q.starter)
    (hq : u.registry.queue = xs ++ q :: ys) (hrest : xs ++ ys = hs ++ ns) :
    List.Sublist ((u.started ++ (hs ++ q' :: ns).map (·.starter)).filter P)
      (u.line.filter P) := by
  have hmap : (xs ++ ys).map (·.starter) = (hs ++ ns).map (·.starter) := by rw [hrest]
  have hl := filter_middle hP (u.started ++ xs.map (·.starter)) (ys.map (·.starter))
  have hl' := filter_middle hP (u.started ++ hs.map (·.starter)) (ns.map (·.starter))
  simp only [List.map_append, List.append_assoc] at hmap hl hl'
  rw [Run.line, hq]
  simp only [List.map_append, List.map_cons, hs', hl, hl', hmap]
  exact List.Sublist.refl _

theorem promote_sound (h : Sound u) (partId : Part) : Sound (u.promote partId) := by
  obtain hno | ⟨xs, ys, q, hs, ns, hq, rfl, hlow, -, hsplit, hyes⟩ :=
    Registry.promote_cases partId h.lanes
  · simpa [Run.promote, hno] using h
  · unfold Run.promote
    simp only [hyes, if_true, h.waiting_eq hq]
    have hmoved : (hs ++ { q with high := true } :: ns).Perm
        ({ q with high := true } :: (xs ++ ys)) := hsplit.1 ▸ List.perm_middle
    have hback : u.registry.queue.Perm (q :: (xs ++ ys)) := hq ▸ List.perm_middle
    have hold : ∀ x ∈ xs ++ ys, x ∈ u.registry.queue :=
      fun x hx => hback.mem_iff.mpr (List.mem_cons_of_mem q hx)
    have hqin : q ∈ u.registry.queue := hback.mem_iff.mpr List.mem_cons_self
    refine ⟨h.bounded, fun _ => h.busy (by simp [hq]), hsplit.insert rfl, ?_, ?_, h.permits,
      ?_, ?_, ?_, h.ordered_of_grown rfl (List.subset_append_left _ _) (fun _ hk => hk) ?_,
      h.reports⟩
    · exact ((hmoved.map (·.partId)).trans (hback.map (·.partId)).symm).nodup_iff.mpr h.parts
    · intro x hx
      obtain rfl | hx := List.mem_cons.mp (hmoved.mem_iff.mp hx)
      · exact h.queued q hqin
      · exact h.queued x (hold x hx)
    · have hstarters := (hmoved.map (·.starter)).trans (hback.map (·.starter)).symm
      exact ((hstarters.append_left _).append_right _).trans h.once
    · intro x hx
      obtain rfl | hx := List.mem_cons.mp (hmoved.mem_iff.mp hx)
      · simp
      · have hne := h.starter_ne hq hx
        simpa [hne] using h.class_of x (hold x hx)
    · intro k hk
      obtain hk | hk := List.mem_append.mp hk
      · exact h.promoted k hk
      · rw [List.mem_singleton.mp hk]
        exact h.line_lt (List.mem_append_right _ (List.mem_map_of_mem hqin))
    · intro high
      apply filter_moved q { q with high := true } _ rfl hq hsplit.1
      simp [Run.kept]

/-- The queue without the entries for one part, and their starters set aside. -/
theorem Sound.removed (h : Sound u) (partId : Part) : Sound (u.remove partId) := by
  have hsub : List.Sublist (u.registry.withoutQueued partId) u.registry.queue :=
    List.filter_sublist
  refine ⟨h.bounded, fun hne => h.busy ?_, h.lanes.sublist hsub,
    h.parts.sublist (hsub.map _), ?_, h.permits, ?_, ?_, h.promoted, ?_, h.reports⟩
  · intro hnil
    exact hne (List.sublist_nil.mp (hnil ▸ hsub))
  · intro q hq
    have hne : q.partId ≠ partId := of_decide_eq_true (List.mem_filter.mp hq).2
    exact (Function.update_of_ne hne _ _).trans (h.queued q (hsub.subset hq))
  · have hsplit : ((u.registry.withoutQueued partId).map (·.starter) ++
        u.registry.waiting partId).Perm (u.registry.queue.map (·.starter)) := by
      have hp := (List.filter_append_perm (fun q => decide (q.partId ≠ partId))
        u.registry.queue).map (·.starter)
      simpa [Registry.withoutQueued, Registry.waiting] using hp
    refine List.Perm.trans ?_ h.once
    have hassoc : (u.remove partId).line ++ (u.remove partId).removed =
        u.started ++ ((u.registry.withoutQueued partId).map (·.starter) ++
          (u.removed ++ u.registry.waiting partId)) := by
      simp [Run.line, Run.remove, Registry.remove]
    rw [hassoc, Run.line, List.append_assoc]
    refine List.Perm.append_left _ ?_
    have hcomm : (u.removed ++ u.registry.waiting partId).Perm
        (u.registry.waiting partId ++ u.removed) := List.perm_append_comm
    have hswap := hcomm.append_left ((u.registry.withoutQueued partId).map (·.starter))
    rw [← List.append_assoc _ (u.registry.waiting partId)] at hswap
    exact hswap.trans (hsplit.append_right _)
  · exact fun q hq => h.class_of q (hsub.subset hq)
  · refine h.ordered_of_grown rfl (fun _ hk => hk) (List.subset_append_left _ _) (fun high => ?_)
    exact ((hsub.map _).append_left _).filter _

theorem cancelIfQueued_sound (h : Sound u) (partId : Part) :
    Sound (u.cancelIfQueued partId) := by
  obtain ⟨hno, -⟩ | hyes := u.registry.cancelIfQueued_cases partId
  · simpa [Run.cancelIfQueued, hno] using h
  · simpa [Run.cancelIfQueued, Run.remove, hyes] using h.removed partId

theorem Sound.running_pos (h : Sound u) {starter : ℕ} (hs : starter ∈ u.started)
    (hf : starter ∉ u.finished) : 0 < u.registry.running := by
  have hnd : (starter :: u.finished).Nodup := List.nodup_cons.mpr ⟨hf, h.reports.1⟩
  have hsub : starter :: u.finished ⊆ u.started := List.cons_subset.mpr ⟨hs, h.reports.2⟩
  have hlen := (List.subperm_of_subset hnd hsub).length_le
  have hpermits := h.permits
  rw [List.length_cons] at hlen
  omega

theorem Sound.reported (h : Sound u) {starter : ℕ} (hs : starter ∈ u.started)
    (hf : starter ∉ u.finished) (new : List ℕ) :
    (u.finished ++ [starter]).Nodup ∧ u.finished ++ [starter] ⊆ u.started ++ new := by
  refine ⟨?_, ?_⟩
  · exact (List.perm_append_singleton _ _).nodup_iff.mpr (List.nodup_cons.mpr ⟨hf, h.reports.1⟩)
  · intro k hk
    obtain hk | hk := List.mem_append.mp hk
    · exact List.mem_append_left _ (h.reports.2 hk)
    · exact List.mem_append_left _ (List.mem_singleton.mp hk ▸ hs)

/-- The permit goes to the head of the queue, which is the next of the line. -/
theorem taskFinished_sound (h : Sound u) {starter : ℕ} (hs : starter ∈ u.started)
    (hf : starter ∉ u.finished) : Sound (u.taskFinished starter) := by
  have hpos := h.running_pos hs hf
  have hbounded := h.bounded
  have hpermits := h.permits
  unfold Run.taskFinished Registry.taskFinished
  cases hq : u.registry.queue with
  | nil =>
    have hline : u.line = u.started := by simp [Run.line, hq]
    refine ⟨?_, fun hne => absurd rfl hne, Lanes.inLanes_nil, List.nodup_nil, by simp, ?_, ?_,
      by simp, h.promoted, ?_, h.reported hs hf _⟩
    · simp only
      omega
    · simp only [Option.toList_none, List.append_nil, List.length_append, List.length_singleton]
      omega
    · simpa [Run.line, hq] using h.once
    · intro high
      have hord := h.ordered high
      rw [hline] at hord
      simp only [Run.line, Option.toList_none, List.append_nil, List.map_nil]
      exact hord
  | cons q rest =>
    have hfull : u.registry.running = u.registry.cap := h.busy (by simp [hq])
    have hrest : ∀ x ∈ rest, x ∈ u.registry.queue := fun x hx => hq ▸ List.mem_cons_of_mem q hx
    have hnd := h.parts
    rw [hq, List.map_cons, List.nodup_cons] at hnd
    have hslot := h.queued q (hq ▸ List.mem_cons_self)
    have hcount : u.registry.running - 1 + 1 = u.registry.running := Nat.sub_add_cancel hpos
    simp only [hslot, hcount]
    have hline : u.started ++ [q.starter] ++ rest.map (·.starter) = u.line := by
      simp [Run.line, hq]
    refine ⟨hbounded, fun _ => hfull, h.lanes.sublist ?_, hnd.2, ?_, ?_, ?_, ?_, h.promoted, ?_,
      h.reported hs hf _⟩
    · rw [hq]
      exact List.sublist_cons_self q rest
    · intro x hx
      have hne : x.partId ≠ q.partId := fun he => hnd.1 (List.mem_map.mpr ⟨x, hx, he⟩)
      exact (Function.update_of_ne hne _ _).trans (h.queued x (hrest x hx))
    · simp only [Option.toList_some, List.length_append, List.length_singleton]
      omega
    · simpa only [Run.line, Option.toList_some, hline] using h.once
    · exact fun x hx => h.class_of x (hrest x hx)
    · intro high
      have hord := h.ordered high
      rw [← hline] at hord
      exact hord

theorem step_sound (e : Event Part) (h : Sound u) (ht : step u e = some v) : Sound v := by
  cases e with
  | submit partId => exact Option.some.inj ht ▸ submitted_sound h partId false
  | submitWithPriority partId high => exact Option.some.inj ht ▸ submitted_sound h partId high
  | promote partId => exact Option.some.inj ht ▸ promote_sound h partId
  | cancelIfQueued partId => exact Option.some.inj ht ▸ cancelIfQueued_sound h partId
  | remove partId => exact Option.some.inj ht ▸ h.removed partId
  | taskFinished starter =>
    obtain ⟨⟨hs, hf⟩, rfl⟩ := by simpa only [step, Option.ite_none_right_eq_some,
      Option.some.injEq] using ht
    exact taskFinished_sound h hs hf

theorem init_sound (cap : ℕ) : Sound (Run.init cap : Run Part) := by
  refine ⟨Nat.zero_le _, fun hne => absurd rfl hne, Lanes.inLanes_nil, List.nodup_nil, ?_, rfl,
    List.Perm.refl _, ?_, ?_, ?_, List.nodup_nil, List.nil_subset _⟩
  · simp [Run.init, Registry.withCap]
  · simp [Run.init, Registry.withCap]
  · simp [Run.init]
  · simp [Run.init, Run.line, Registry.withCap]

/-- What the registry promises: permits are bounded and never idle while a
fetch waits, the high entries stand first, a queued part has its queued slot,
each accepted starter has run once, still waits or was taken out, and in one
class those left alone run as they were submitted. -/
structure Coordinated (u : Run Part) : Prop where
  running_le : u.registry.running ≤ u.registry.cap
  permits : u.registry.running + u.finished.length = u.started.length
  busy : u.registry.queue ≠ [] → u.registry.running = u.registry.cap
  highs_first : ∃ hs ns, u.registry.queue = hs ++ ns ∧ (∀ q ∈ hs, q.high = true) ∧
    ∀ q ∈ ns, q.high = false
  parts : (u.registry.queue.map (·.partId)).Nodup
  queued : ∀ q ∈ u.registry.queue, u.registry.slots q.partId = some ⟨true⟩
  once : (u.started ++ u.registry.queue.map (·.starter) ++ u.removed).Perm
    (List.range u.classes.length)
  ordered : ∀ high, (u.started.filter
    (fun k => u.classes[k]? = some high ∧ k ∉ u.promoted ∧ k ∉ u.removed)).Pairwise (· < ·)

theorem Sound.coordinated (h : Sound u) : Coordinated u := by
  refine ⟨h.bounded, h.permits, h.busy, h.lanes, h.parts, h.queued, h.once, fun high => ?_⟩
  have hord := h.ordered high
  rw [Run.line, List.filter_append] at hord
  exact (List.pairwise_append.mp hord).1

end YapStack.Fetch
