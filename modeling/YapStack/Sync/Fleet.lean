import YapStack.Sync.Clocks

set_option linter.unusedSectionVars false

namespace YapStack.Sync.Crr

/-- A change, and the `db_version` of its clock row. -/
abbrev Versioned (Key Column V : Type) := Change Key Column V × ℕ

/-- A table of one device's database with its clock rows, and the highest `db_version` of any. -/
structure Store (Key Column V : Type) where
  table : Replica Key Column V
  clock : Key → Clocks Column
  version : ℕ

inductive LocalWrite (Key Column V : Type)
  | insert (k : Key) (values : Column → V)
  | update (k : Key) (col : Column) (value : V)
  | delete (k : Key)

namespace Store

variable {Key Column V : Type} [DecidableEq Key] [DecidableEq Column] [LinearOrder V]

def empty : Store Key Column V := ⟨.empty, fun _ _ => .foreign, 0⟩

def row (s : Store Key Column V) (k : Key) : Row Column V := s.table.row k

def turn (s : Store Key Column V) (k : Key) (r : Row Column V) (f : Clocks Column) (version : ℕ) :
    Store Key Column V :=
  ⟨s.table.set k r, Function.update s.clock k f, version⟩

variable (schema : Schema Column V)

/-- A write of a local transaction, whose writes share one `next_db_version`. An `UPDATE` to an equal
value marks no column. -/
def write (version : ℕ) (s : Store Key Column V) :
    LocalWrite Key Column V → Option (Store Key Column V)
  | .insert k values =>
    if (s.row k).cells.isNone then
      some (s.turn k ((s.row k).reinserted values)
        (insertClocks version schema.columns (s.row k) (s.clock k)) version)
    else none
  | .update k col value =>
    match (s.row k).cells with
    | none => none
    | some cells =>
      if (cells col).value = value then some s
      else some (s.turn k ((s.row k).updated col value) (updateClocks version (s.clock k) col)
        version)
  | .delete k =>
    if (s.row k).cells.isSome then
      some (s.turn k (s.row k).deleted (deleteClocks version) version)
    else none

/-- One change merged in a transaction that began at `first`. Only a change that wins takes a
`next_db_version`, which is never below the one that the change brings. -/
def mergeChange (first : ℕ) (s : Store Key Column V) (r : Versioned Key Column V) :
    Store Key Column V :=
  if (s.row r.1.key).takes r.1 then
    let version := max (max first s.version) r.2
    s.turn r.1.key (mergeInsert (s.row r.1.key) r.1 schema.defaults)
      (mergeClocks version (s.row r.1.key) (s.clock r.1.key) r.1) version
  else s

def mergeAll (first : ℕ) (s : Store Key Column V) (rows : List (Versioned Key Column V)) :
    Store Key Column V :=
  rows.foldl (mergeChange schema first) s

/-- The rows of `read_local_changes_since` for a key. -/
def owed (s : Store Key Column V) (watermark : ℕ) (k : Key) : List (Versioned Key Column V) :=
  (changesOf schema.columns k (s.row k)).filterMap fun c =>
    match s.clock k c.clock with
    | .foreign => none
    | .own version => if watermark < version then some (c, version) else none

end Store

/-- A capture in progress: the rows it read that no chunk holds yet, and the highest `db_version` at
its read. -/
structure Attempt (Key Column V : Type) where
  rows : List (Versioned Key Column V)
  upto : ℕ

structure Node (Key Column V : Type) where
  store : Store Key Column V
  watermark : ℕ
  attempt : Option (Attempt Key Column V)
  outbox : List (List (Versioned Key Column V))
  cursor : ℕ

/-- `resite_as_fresh_peer`: the copy of a database as another device opens it, where every clock row
is another site's. -/
def Node.resited {Key Column V : Type} (n : Node Key Column V) : Node Key Column V :=
  { n with
    store := { n.store with clock := fun _ _ => .foreign }
    attempt := none }

/-- The devices of one account, and the changesets that the relay holds, in the order of their
sequence numbers. -/
structure Fleet (Device Key Column V : Type) where
  node : Device → Node Key Column V
  relay : List (List (Versioned Key Column V))

/-- `chunk_commit_watermark`. -/
def closedVersion {α : Type} (chunk : List (α × ℕ)) (next : Option ℕ) : Option ℕ :=
  chunk.getLast?.bind fun last =>
    match next with
    | none => some last.2
    | some n =>
      if n ≤ last.2 then (chunk.reverse.map Prod.snd).find? fun v => decide (v < n) else some last.2

namespace Fleet

variable {Device Key Column V : Type}

/-- What devices do: a transaction of local writes under a new `db_version`, the read of a capture,
the transaction of its next chunk, one that is cut off, a push of an outbox entry, an answer to it,
a merge of a part of a changeset, the next changeset of a pull, and a device without rows that takes
over a snapshot of another one. -/
inductive Event (Device Key Column V : Type)
  | write (d : Device) (version : ℕ) (writes : List (LocalWrite Key Column V))
  | read (d : Device) (rows : List (Versioned Key Column V))
  | commit (d : Device) (count : ℕ)
  | abandon (d : Device)
  | push (d : Device) (i : ℕ)
  | ack (d : Device) (i : ℕ)
  | apply (d : Device) (version i count : ℕ)
  | pull (d : Device) (version : ℕ)
  | bootstrap (d seed : Device)

variable [DecidableEq Device] [DecidableEq Key] [DecidableEq Column] [LinearOrder V]

def empty : Fleet Device Key Column V := ⟨fun _ => ⟨.empty, 0, none, [], 0⟩, []⟩

def set (m : Fleet Device Key Column V) (d : Device) (n : Node Key Column V) :
    Fleet Device Key Column V :=
  { m with node := Function.update m.node d n }

def put (m : Fleet Device Key Column V) (d : Device) (s : Store Key Column V) :
    Fleet Device Key Column V :=
  m.set d { m.node d with store := s }

variable (schema : Schema Column V)

/-- The rows are those of `read_local_changes_since`, by `db_version`. -/
def Reads (n : Node Key Column V) (rows : List (Versioned Key Column V)) : Prop :=
  (rows.Pairwise fun a b => a.2 ≤ b.2) ∧ (∀ r ∈ rows, r ∈ n.store.owed schema n.watermark r.1.key) ∧
    ∀ k ∈ n.store.table.keys, ∀ r ∈ n.store.owed schema n.watermark k, r ∈ rows

instance (n : Node Key Column V) (rows : List (Versioned Key Column V)) :
    Decidable (Reads schema n rows) :=
  inferInstanceAs (Decidable (_ ∧ _ ∧ _))

def commitChunk (n : Node Key Column V) (a : Attempt Key Column V) (count : ℕ) :
    Node Key Column V :=
  let chunk := a.rows.take count
  let rest := a.rows.drop count
  let closed := (closedVersion chunk (rest.head?.map Prod.snd)).filter fun v =>
    decide (n.watermark < v)
  { n with
    watermark := closed.getD n.watermark
    attempt := if rest = [] then none else some { a with rows := rest }
    outbox := n.outbox ++ [chunk] }

def step (m : Fleet Device Key Column V) :
    Event Device Key Column V → Option (Fleet Device Key Column V)
  | .write d version writes =>
    if (m.node d).store.version < version then
      (Runs.exec (Store.write schema version) (m.node d).store writes).map (m.put d)
    else none
  | .read d rows =>
    if (m.node d).attempt.isNone ∧ Reads schema (m.node d) rows then
      some (m.set d { m.node d with attempt := some ⟨rows, (m.node d).store.version⟩ })
    else none
  | .commit d count =>
    (m.node d).attempt.bind fun a =>
      if 0 < count ∧ a.rows ≠ [] then some (m.set d (commitChunk (m.node d) a count)) else none
  | .abandon d => some (m.set d { m.node d with attempt := none })
  | .push d i =>
    (m.node d).outbox[i]?.map fun entry => { m with relay := m.relay ++ [entry] }
  | .ack d i =>
    (m.node d).outbox[i]?.bind fun entry =>
      if entry ∈ m.relay then
        some (m.set d { m.node d with outbox := (m.node d).outbox.eraseIdx i })
      else none
  | .apply d version i count =>
    if (m.node d).store.version < version then
      m.relay[i]?.map fun entry =>
        m.put d ((m.node d).store.mergeAll schema version (entry.take count))
    else none
  | .pull d version =>
    if (m.node d).store.version < version then
      m.relay[(m.node d).cursor]?.map fun entry => m.set d { m.node d with
        store := (m.node d).store.mergeAll schema version entry
        cursor := (m.node d).cursor + 1 }
    else none
  | .bootstrap d seed =>
    if (m.node d).store.table.keys = ∅ ∧ (m.node d).outbox = [] then
      some (m.set d (m.node seed).resited)
    else none

end Fleet

section Stores

variable {Key Column V : Type} [DecidableEq Key] [DecidableEq Column] [LinearOrder V]
variable {schema : Schema Column V} {s t : Store Key Column V} {k : Key}

theorem Store.row_turn (s : Store Key Column V) (k : Key) (r : Row Column V) (f : Clocks Column)
    (version : ℕ) (j : Key) : (s.turn k r f version).row j = if j = k then r else s.row j := by
  by_cases hj : j = k
  · subst hj
    simp [Store.row, Store.turn, Replica.set]
  · simp [Store.row, Store.turn, Replica.set, hj]

theorem Store.clock_turn (s : Store Key Column V) (k : Key) (r : Row Column V) (f : Clocks Column)
    (version : ℕ) (j : Key) :
    (s.turn k r f version).clock j = if j = k then f else s.clock j := by
  by_cases hj : j = k
  · subst hj
    simp [Store.turn]
  · simp [Store.turn, hj]

theorem Store.mem_owed {watermark : ℕ} {r : Versioned Key Column V} :
    r ∈ s.owed schema watermark k ↔ r.1 ∈ changesOf schema.columns k (s.row k) ∧
      s.clock k r.1.clock = .own r.2 ∧ watermark < r.2 := by
  rw [Store.owed, List.mem_filterMap]
  constructor
  · intro h
    obtain ⟨c, hc, heq⟩ := h
    split at heq
    · cases heq
    · rename_i version hclock
      split at heq
      · rename_i hlt
        obtain rfl := Option.some.inj heq
        exact ⟨hc, hclock, hlt⟩
      · cases heq
  · intro h
    obtain ⟨hc, hclock, hlt⟩ := h
    refine ⟨r.1, hc, ?_⟩
    rw [hclock]
    exact if_pos hlt

theorem Store.shown_known {c : Change Key Column V}
    (h : c ∈ changesOf schema.columns k (s.row k)) : k ∈ s.table.keys := by
  by_contra hk
  rw [Store.row, s.table.known k hk] at h
  have hcl := cl_of_mem h
  have hnone : changesOf schema.columns k (Row.absent : Row Column V) = [] := by
    simp [changesOf, Row.absent]
  rw [hnone] at h
  cases h

theorem closedVersion_spec {α : Type} {chunk rest : List (α × ℕ)} {v : ℕ}
    (hsorted : (chunk ++ rest).Pairwise fun a b => a.2 ≤ b.2)
    (h : closedVersion chunk (rest.head?.map Prod.snd) = some v) :
    (∃ r ∈ chunk, r.2 = v) ∧ ∀ r ∈ rest, v < r.2 := by
  obtain ⟨last, hlast, h⟩ := Option.bind_eq_some_iff.mp h
  have hmem : last ∈ chunk := List.mem_of_getLast? hlast
  cases rest with
  | nil =>
    obtain rfl := Option.some.inj h
    exact ⟨⟨last, hmem, rfl⟩, fun r hr => (by cases hr)⟩
  | cons next rest =>
    have hnext : ∀ r ∈ next :: rest, next.2 ≤ r.2 := by
      intro r hr
      obtain rfl | hr := List.mem_cons.mp hr
      · exact le_refl _
      · exact (List.pairwise_cons.mp (List.pairwise_append.mp hsorted).2.1).1 r hr
    simp only [List.head?_cons, Option.map_some] at h
    split at h
    · have hv := List.find?_some h
      obtain ⟨r, hr, heq⟩ := List.mem_map.mp (List.mem_of_find?_eq_some h)
      refine ⟨⟨r, List.mem_reverse.mp hr, heq⟩, fun r hr => ?_⟩
      exact lt_of_lt_of_le (of_decide_eq_true hv) (hnext r hr)
    · rename_i hlt
      obtain rfl := Option.some.inj h
      exact ⟨⟨last, hmem, rfl⟩, fun r hr => lt_of_lt_of_le (by omega) (hnext r hr)⟩

end Stores

namespace Fleet

variable {Device Key Column V : Type}
variable [DecidableEq Device] [DecidableEq Key] [DecidableEq Column] [LinearOrder V]

/-- The change is in a changeset that the relay or an outbox holds. -/
def Sent (m : Fleet Device Key Column V) (c : Change Key Column V) : Prop :=
  (∃ entry ∈ m.relay, ∃ r ∈ entry, r.1 = c) ∨
    ∃ d, ∃ entry ∈ (m.node d).outbox, ∃ r ∈ entry, r.1 = c

/-- The next capture of the device has to read the change. -/
def Owed (schema : Schema Column V) (n : Node Key Column V) (c : Change Key Column V) : Prop :=
  c ∈ changesOf schema.columns c.key (n.store.row c.key) ∧
    (n.store.clock c.key c.clock).since n.watermark = true

/-- The change is on its way to every device, or it will be once its device captures it. -/
def Source (schema : Schema Column V) (m : Fleet Device Key Column V) (c : Change Key Column V) :
    Prop := m.Sent c ∨ ∃ d, Owed schema (m.node d) c

/-- A capture holds the change that no chunk holds yet. -/
def Planned (m : Fleet Device Key Column V) (c : Change Key Column V) : Prop :=
  ∃ d a, (m.node d).attempt = some a ∧ ∃ r ∈ a.rows, r.1 = c

/-- Each change of `S` is followed by one of `S'` that is at least as far. -/
def Covers (S S' : Change Key Column V → Prop) : Prop :=
  ∀ c, S c → ∃ c', S' c' ∧ c'.key = c.key ∧ c.mark ≤ c'.mark

/-- Every column of the key has a change at this causal length that some device wrote, or one at a
later length. -/
def Founded (S : Change Key Column V → Prop) (k : Key) (n : ℕ) : Prop :=
  ∀ col, ∃ c, S c ∧ c.key = k ∧
    (n < c.cl ∨ c.cl = n ∧ ∃ w, c.write = some w ∧ w.column = col ∧ 1 ≤ w.version)

/-- What holds of a device, `sent` being the changes that are in a changeset. -/
structure NodeSound (schema : Schema Column V) (sent : Change Key Column V → Prop)
    (n : Node Key Column V) : Prop where
  settled : ∀ k, (n.store.row k).Settled schema
  version : ∀ k d v, n.store.clock k d = .own v → v ≤ n.store.version
  watermark : n.watermark ≤ n.store.version
  upto : ∀ a, n.attempt = some a → n.watermark ≤ a.upto ∧ a.upto ≤ n.store.version
  sorted : ∀ a, n.attempt = some a → a.rows.Pairwise fun x y => x.2 ≤ y.2
  below : ∀ a, n.attempt = some a → ∀ r ∈ a.rows, r.2 ≤ a.upto
  captured : ∀ a, n.attempt = some a → ∀ k, ∀ c ∈ changesOf schema.columns k (n.store.row k),
    ∀ v, n.store.clock k c.clock = .own v → n.watermark < v → v ≤ a.upto →
      (c, v) ∈ a.rows ∨ sent c

/-- What holds of all devices and the relay. -/
structure Sound (schema : Schema Column V) (m : Fleet Device Key Column V) : Prop where
  nodes : ∀ d, NodeSound schema m.Sent (m.node d)
  held : ∀ c, m.Sent c ∨ m.Planned c → c.Settled schema ∧
    (c.cl % 2 = 1 → Founded (m.Source schema) c.key c.cl)
  founded : ∀ d k, ((m.node d).store.row k).cl % 2 = 1 →
    Founded (m.Source schema) k ((m.node d).store.row k).cl
  shown : ∀ d k, ∀ c ∈ changesOf schema.columns k ((m.node d).store.row k),
    (∃ w, c.write = some w ∧ w.version = 0) ∨
      ∃ c', m.Source schema c' ∧ c'.key = k ∧ c.mark ≤ c'.mark
  cursor : ∀ d, (m.node d).cursor ≤ m.relay.length
  absorbed : ∀ d, ∀ entry ∈ m.relay.take (m.node d).cursor, ∀ r ∈ entry,
    r.1.mark ≤ ((m.node d).store.row r.1.key).mark

variable {schema : Schema Column V} {m m' : Fleet Device Key Column V} {d : Device}
  {S S' : Change Key Column V → Prop} {n : Node Key Column V} {k : Key}

theorem covers_of_imp (h : ∀ c, S c → S' c) : Covers S S' :=
  fun c hc => ⟨c, h c hc, rfl, le_refl _⟩

theorem Founded.covered {cl : ℕ} (h : Founded S k cl) (hodd : cl % 2 = 1) (hc : Covers S S') :
    Founded S' k cl := by
  intro col
  obtain ⟨c, hS, hkey, hc'⟩ := h col
  obtain ⟨c', hS', hkey', hle⟩ := hc c hS
  refine ⟨c', hS', hkey'.trans hkey, ?_⟩
  have hcl : c.cl ≤ c'.cl := by
    obtain hlt | ⟨heq, -⟩ := mark_le_iff.mp hle
    · exact hlt.le
    · exact heq.le
  obtain hlt | ⟨rfl, w, hw, hcol, hpos⟩ := hc'
  · exact .inl (by omega)
  · obtain hlt | ⟨heq, w', hw', hcol', hver⟩ := write_of_le hodd hw hle
    · exact .inl hlt
    · exact .inr ⟨heq, w', hw', hcol'.trans hcol, hpos.trans hver⟩

theorem NodeSound.mono (h : NodeSound schema S n) (hS : ∀ c, S c → S' c) :
    NodeSound schema S' n := by
  refine ⟨h.settled, h.version, h.watermark, h.upto, h.sorted, h.below,
    fun a ha k c hc v hv hlt hle => ?_⟩
  obtain hmem | hsent := h.captured a ha k c hc v hv hlt hle
  · exact .inl hmem
  · exact .inr (hS c hsent)

theorem node_set (m : Fleet Device Key Column V) (d : Device) (n : Node Key Column V)
    (e : Device) : (m.set d n).node e = if e = d then n else m.node e := by
  by_cases he : e = d
  · subst he
    simp [set]
  · simp [set, he]

theorem relay_set (m : Fleet Device Key Column V) (d : Device) (n : Node Key Column V) :
    (m.set d n).relay = m.relay := rfl

theorem sent_set {c : Change Key Column V} (hn : n.outbox = (m.node d).outbox) :
    (m.set d n).Sent c ↔ m.Sent c := by
  have houtbox : ∀ e, ((m.set d n).node e).outbox = (m.node e).outbox := by
    intro e
    rw [node_set]
    split
    · rename_i he
      rw [hn, he]
    · rfl
  simp only [Sent, relay_set, houtbox]

theorem planned_set {c : Change Key Column V}
    (hn : ∀ a, n.attempt = some a → ∀ r ∈ a.rows, m.Planned r.1)
    (h : (m.set d n).Planned c) : m.Planned c := by
  obtain ⟨e, a, ha, r, hr, rfl⟩ := h
  rw [node_set] at ha
  split at ha
  · exact hn a ha r hr
  · exact ⟨e, a, ha, r, hr, rfl⟩

theorem source_of_owed {c : Change Key Column V} (hc : Owed schema n c) :
    (m.set d n).Source schema c := by
  refine .inr ⟨d, ?_⟩
  rwa [node_set, if_pos rfl]

/-- One device turns one row, and nothing else. -/
structure Turning (schema : Schema Column V) (m : Fleet Device Key Column V) (d : Device) (k : Key)
    (v : ℕ) (r : Row Column V) (f : Clocks Column) (n : Node Key Column V) : Prop where
  row : ∀ j, n.store.row j = if j = k then r else (m.node d).store.row j
  clock : ∀ j, n.store.clock j = if j = k then f else (m.node d).store.clock j
  version : n.store.version = v
  watermark : n.watermark = (m.node d).watermark
  attempt : n.attempt = (m.node d).attempt
  outbox : n.outbox = (m.node d).outbox
  cursor : n.cursor = (m.node d).cursor
  turned : Turned schema m.Sent k (m.node d).watermark v ((m.node d).store.row k)
    ((m.node d).store.clock k) r f
  own : ∀ x v', f x = .own v' → v' = v ∨ (m.node d).store.clock k x = .own v'
  passed : (m.node d).watermark < v
  grows : (m.node d).store.version ≤ v
  unread : ∀ a, (m.node d).attempt = some a → a.upto < v

namespace Turning

variable {v : ℕ} {r : Row Column V} {f : Clocks Column} (ht : Turning schema m d k v r f n)

include ht

theorem sent (c : Change Key Column V) : (m.set d n).Sent c ↔ m.Sent c := sent_set ht.outbox

theorem covers : Covers (m.Source schema) ((m.set d n).Source schema) := by
  intro c hc
  obtain hc | ⟨e, hc⟩ := hc
  · exact ⟨c, .inl ((ht.sent c).mpr hc), rfl, le_refl _⟩
  · by_cases he : e = d
    · subst he
      by_cases hk : c.key = k
      · subst hk
        obtain ⟨c', hkey, hle, hc' | ⟨hc', hf⟩⟩ := ht.turned.kept c hc.1 hc.2
        · exact ⟨c', .inl ((ht.sent c').mpr hc'), hkey, hle⟩
        · refine ⟨c', source_of_owed ⟨?_, ?_⟩, hkey, hle⟩
          · rwa [ht.row, if_pos hkey, hkey]
          · rwa [ht.clock, if_pos hkey, ht.watermark]
      · refine ⟨c, source_of_owed ⟨?_, ?_⟩, rfl, le_refl _⟩
        · rw [ht.row, if_neg hk]
          exact hc.1
        · rw [ht.clock, if_neg hk, ht.watermark]
          exact hc.2
    · refine ⟨c, .inr ⟨e, ?_⟩, rfl, le_refl _⟩
      rwa [node_set, if_neg he]

/-- No capture has read what the turn shows. -/
theorem captured (h : NodeSound schema m.Sent (m.node d)) {a : Attempt Key Column V}
    (ha : (m.node d).attempt = some a) {j : Key} {c : Change Key Column V}
    (hc : c ∈ changesOf schema.columns j (n.store.row j)) {v' : ℕ}
    (hv : n.store.clock j c.clock = .own v') (hlt : (m.node d).watermark < v')
    (hle : v' ≤ a.upto) : (c, v') ∈ a.rows ∨ m.Sent c := by
  rw [ht.row] at hc
  rw [ht.clock] at hv
  split at hv
  · rename_i hj
    subst hj
    rw [if_pos rfl] at hc
    obtain ⟨hc, hsame⟩ | hnew | ⟨hforeign, -⟩ := ht.turned.shown c hc
    · exact h.captured a ha j c hc v' (hsame ▸ hv) hlt hle
    · have hunread := ht.unread a ha
      rw [hnew] at hv
      obtain rfl := Clock.own.inj hv
      omega
    · rw [hforeign] at hv
      cases hv
  · rename_i hj
    rw [if_neg hj] at hc
    exact h.captured a ha j c hc v' hv hlt hle

theorem nodeSound (h : NodeSound schema m.Sent (m.node d)) : NodeSound schema m.Sent n := by
  refine ⟨fun j => ?_, fun j x v' hx => ?_, ?_, fun a ha => ?_, fun a ha => ?_, fun a ha => ?_,
    fun a ha j c hc v' hx hlt hle => ?_⟩
  · rw [ht.row]
    split
    · exact ht.turned.settled
    · exact h.settled j
  · rw [ht.clock] at hx
    rw [ht.version]
    split at hx
    · obtain rfl | hx := ht.own x v' hx
      · exact le_refl _
      · exact (h.version k x v' hx).trans ht.grows
    · exact (h.version j x v' hx).trans ht.grows
  · rw [ht.watermark, ht.version]
    exact ht.passed.le
  · rw [ht.attempt] at ha
    rw [ht.watermark, ht.version]
    exact ⟨(h.upto a ha).1, (ht.unread a ha).le⟩
  · exact h.sorted a (ht.attempt ▸ ha)
  · exact h.below a (ht.attempt ▸ ha)
  · exact ht.captured h (ht.attempt ▸ ha) hc hx (ht.watermark ▸ hlt) hle

theorem held (h : m.Sound schema) {c : Change Key Column V} (hc : m.Sent c ∨ m.Planned c) :
    c.Settled schema ∧ (c.cl % 2 = 1 → Founded ((m.set d n).Source schema) c.key c.cl) :=
  ⟨(h.held c hc).1, fun hodd => ((h.held c hc).2 hodd).covered hodd ht.covers⟩

theorem founded (h : m.Sound schema) (j : Key) (hodd : (n.store.row j).cl % 2 = 1) :
    Founded ((m.set d n).Source schema) j (n.store.row j).cl := by
  rw [ht.row] at hodd ⊢
  split at hodd
  · rename_i hj
    subst hj
    rw [if_pos rfl]
    obtain heq | heven | ⟨c, hkey, hc, heq⟩ | hnew := ht.turned.length
    · rw [heq] at hodd ⊢
      exact (h.founded d j hodd).covered hodd ht.covers
    · omega
    · have hfounded := (ht.held h (.inl hc)).2 (by omega)
      rwa [hkey, heq] at hfounded
    · intro col
      obtain ⟨value, hmem, hf⟩ := hnew col
      refine ⟨⟨j, r.cl, some ⟨col, value, 1⟩⟩, source_of_owed ⟨?_, ?_⟩, rfl,
        .inr ⟨rfl, _, rfl, rfl, le_refl 1⟩⟩
      · rwa [ht.row, if_pos rfl]
      · rw [ht.clock, if_pos rfl, ht.watermark, Change.clock, Option.map_some, hf]
        exact since_own ht.passed
  · rename_i hj
    rw [if_neg hj]
    exact (h.founded d j hodd).covered hodd ht.covers

theorem backed (h : m.Sound schema) {e : Device} {j : Key} {c : Change Key Column V}
    (hc : c ∈ changesOf schema.columns j ((m.node e).store.row j)) :
    (∃ w, c.write = some w ∧ w.version = 0) ∨
      ∃ c', (m.set d n).Source schema c' ∧ c'.key = j ∧ c.mark ≤ c'.mark := by
  obtain hzero | ⟨c', hc', hkey, hle⟩ := h.shown e j c hc
  · exact .inl hzero
  · obtain ⟨c'', hc'', hkey', hle'⟩ := ht.covers c' hc'
    exact .inr ⟨c'', hc'', hkey'.trans hkey, hle.trans hle'⟩

theorem shown (h : m.Sound schema) {j : Key} {c : Change Key Column V}
    (hc : c ∈ changesOf schema.columns j (n.store.row j)) :
    (∃ w, c.write = some w ∧ w.version = 0) ∨
      ∃ c', (m.set d n).Source schema c' ∧ c'.key = j ∧ c.mark ≤ c'.mark := by
  have hrow := ht.row j
  split at hrow
  · rename_i hj
    subst hj
    rw [hrow] at hc
    obtain ⟨hc, -⟩ | hnew | ⟨-, ⟨c', hkey, hc', hle⟩ | hzero⟩ := ht.turned.shown c hc
    · exact ht.backed h hc
    · have hkey := (settled_of_mem hc).2
      refine .inr ⟨c, source_of_owed ⟨?_, ?_⟩, hkey, le_refl _⟩
      · rwa [ht.row, if_pos hkey, hkey]
      · rw [ht.clock, if_pos hkey, ht.watermark, hnew]
        exact since_own ht.passed
    · exact .inr ⟨c', .inl ((ht.sent c').mpr hc'), hkey, hle⟩
    · exact .inl hzero
  · rw [hrow] at hc
    exact ht.backed h hc

theorem row_le (j : Key) : ((m.node d).store.row j).mark ≤ (n.store.row j).mark := by
  rw [ht.row]
  split
  · rename_i hj
    rw [hj]
    exact ht.turned.le
  · exact le_refl _

theorem sound (h : m.Sound schema) : (m.set d n).Sound schema := by
  refine ⟨fun e => ?_, fun c hc => ht.held h ?_, fun e j hodd => ?_, fun e j c hc => ?_, fun e => ?_,
    fun e entry hentry x hx => ?_⟩
  · rw [node_set]
    split
    · exact (ht.nodeSound (h.nodes d)).mono fun c hc => (ht.sent c).mpr hc
    · exact (h.nodes e).mono fun c hc => (ht.sent c).mpr hc
  · obtain hc | hc := hc
    · exact .inl ((ht.sent c).mp hc)
    · refine .inr (planned_set (fun a ha x hx => ⟨d, a, ?_, x, hx, rfl⟩) hc)
      rw [← ha, ht.attempt]
  · rw [node_set] at hodd ⊢
    split at hodd
    · rename_i he
      rw [if_pos he]
      exact ht.founded h j hodd
    · rename_i he
      rw [if_neg he]
      exact (h.founded e j hodd).covered hodd ht.covers
  · rw [node_set] at hc
    split at hc
    · exact ht.shown h hc
    · exact ht.backed h hc
  · rw [node_set]
    split
    · rw [ht.cursor]
      exact h.cursor d
    · exact h.cursor e
  · rw [node_set] at hentry ⊢
    split at hentry
    · rename_i he
      subst he
      rw [ht.cursor] at hentry
      rw [if_pos rfl]
      exact (h.absorbed e entry hentry x hx).trans (ht.row_le x.1.key)
    · rename_i he
      rw [if_neg he]
      exact h.absorbed e entry hentry x hx

end Turning

end Fleet

end YapStack.Sync.Crr
