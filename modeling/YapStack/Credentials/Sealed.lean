import YapStack.Crypto.Aead
import YapStack.Foundation.Runs

namespace YapStack.Credentials.Sealed

open Crypto Runs

/-- The texts of a session and of the entry beside its wrapping key. -/
structure Formats (S V : Type) where
  epoch : S → UInt32
  toJson : S → Bytes
  fromJson : Bytes → Option S
  encodeEntry : Block 32 → UInt32 → V
  decodeEntry : V → Option (Block 32 × UInt32)
  fromJson_toJson : ∀ s, fromJson (toJson s) = some s
  decode_encode : ∀ key e, decodeEntry (encodeEntry key e) = some (key, e)

def SESSION_STORE_DOMAIN : Bytes := Bytes.utf8 "yapstack.session.store.v2"

def sessionAad (epoch : UInt32) : Bytes :=
  Bytes.lp [[version], SESSION_STORE_DOMAIN, Bytes.u32be epoch]

/-- The bytes of a file, and whether they are on disk. -/
structure File where
  bytes : Bytes
  synced : Bool
  deriving DecidableEq

/-- The next thing a writer does. -/
inductive Stage
  | write
  | sync
  | rename
  | syncDir
  | setKey
  deriving DecidableEq

/-- Who holds `session_store_lock`. -/
inductive Writer (S : Type)
  | storing (session : S) (key : Block 32) (blob : Bytes) (stage : Stage)
  | removing
  | deleting

/-- `crashed` is what the directory may hold of the final file after a crash; `made` and
`committed` are what was ever sealed and what the entry was last set for. -/
structure Store (S V : Type) where
  final : Option File
  crashed : List (Option File)
  tmp : Option File
  entry : Option V
  writer : Option (Writer S)
  made : List (Block 32 × S)
  committed : Option (Block 32 × S)

/-- `missed` is a read of the entry that finds nothing though it is there. -/
inductive Action (S : Type)
  | store (session : S) (missed : Bool) (fresh : Block 32) (nonce : Block 24)
  | update (f : S → S) (missed : Bool) (fresh : Block 32) (nonce : Block 24)
  | clear
  | advance
  | fail
  | crash (i : ℕ) (torn : Bytes)
  | tamper (file : Option Bytes)

section Model

variable {S V : Type} (F : Formats S V) (prim : Primitives)

def loadSessionWrapped (st : Store S V) : Option S :=
  match st.entry, st.final with
  | some v, some file =>
    match F.decodeEntry v with
    | none => none
    | some (key, expected) =>
      match openStandard prim key file.bytes (sessionAad expected) with
      | .error _ => none
      | .ok json =>
        match F.fromJson json with
        | none => none
        | some s => if F.epoch s = expected then some s else none
  | _, _ => none

/-- The key of the entry, or a fresh one. -/
def wrapKey (entry : Option V) (fresh : Block 32) : Block 32 :=
  ((entry.bind F.decodeEntry).map (·.1)).getD fresh

/-- The start of `store_session_wrapped_locked`, up to the sealed session. -/
def beginStore (st : Store S V) (s : S) (missed : Bool) (fresh : Block 32) (nonce : Block 24) :
    Store S V :=
  let key := wrapKey F (if missed then none else st.entry) fresh
  match sealStandard prim key nonce (F.toJson s) (sessionAad (F.epoch s)) with
  | .error _ => st
  | .ok blob =>
    { st with
      writer := some (.storing s key blob .write)
      made := st.made ++ [(key, s)] }

/-- One step of the writer. -/
def advance (st : Store S V) : Writer S → Store S V
  | .storing s key blob .write =>
    { st with tmp := some ⟨blob, false⟩, writer := some (.storing s key blob .sync) }
  | .storing s key blob .sync =>
    { st with
      tmp := st.tmp.map fun file => ⟨file.bytes, true⟩
      writer := some (.storing s key blob .rename) }
  | .storing s key blob .rename =>
    { st with
      final := st.tmp
      crashed := st.crashed ++ [st.tmp]
      tmp := none
      writer := some (.storing s key blob .syncDir) }
  | .storing s key blob .syncDir =>
    { st with crashed := [st.final], writer := some (.storing s key blob .setKey) }
  | .storing s key _ .setKey =>
    { st with
      entry := some (F.encodeEntry key (F.epoch s))
      committed := some (key, s)
      writer := none }
  | .removing =>
    { st with final := none, crashed := st.crashed ++ [none], writer := some .deleting }
  | .deleting => { st with entry := none, committed := none, writer := none }

/-- What the disk has of a file after a crash. -/
def afterCrash (torn : Bytes) (file : Option File) : Option File :=
  file.map fun f => ⟨if f.synced then f.bytes else torn, true⟩

def step (st : Store S V) : Action S → Option (Store S V)
  | .store s missed fresh nonce =>
    match st.writer with
    | none => some (beginStore F prim st s missed fresh nonce)
    | some _ => none
  | .update f missed fresh nonce =>
    match st.writer, loadSessionWrapped F prim st with
    | none, some s => some (beginStore F prim st (f s) missed fresh nonce)
    | _, _ => none
  | .clear =>
    match st.writer with
    | none => some { st with writer := some .removing }
    | some _ => none
  | .advance => st.writer.map (advance F st)
  | .fail =>
    match st.writer with
    | none => none
    | some .removing => some { st with writer := some .deleting }
    | some _ => some { st with writer := none, tmp := none }
  | .crash i torn => (st.crashed[i]?).map fun file =>
      { st with
        final := afterCrash torn file
        crashed := [afterCrash torn file]
        tmp := none
        writer := none }
  | .tamper file =>
    some { st with
      final := file.map (⟨·, true⟩)
      crashed := st.crashed ++ [file.map (⟨·, true⟩)] }

def fresh : Store S V := ⟨none, [none], none, none, none, [], none⟩

end Model

variable {S V : Type} {F : Formats S V} {prim : Primitives} {st st' u : Store S V}
  {s : S} {a : Action S}

theorem load_eq_some (h : loadSessionWrapped F prim st = some s) :
    ∃ v file key, st.entry = some v ∧ st.final = some file ∧
      F.decodeEntry v = some (key, F.epoch s) ∧
      ∃ json, openStandard prim key file.bytes (sessionAad (F.epoch s)) = .ok json ∧
        F.fromJson json = some s := by
  rw [loadSessionWrapped] at h
  split at h
  · rename_i v file hentry hfinal
    split at h
    · cases h
    · rename_i key expected hdecode
      split at h
      · cases h
      · rename_i json hjson
        split at h
        · cases h
        · rename_i s' hs
          split at h
          · rename_i hepoch
            obtain rfl := Option.some.inj h
            subst hepoch
            exact ⟨v, file, key, hentry, hfinal, hdecode, json, hjson, hs⟩
          · cases h
  · cases h

/-! Rolling back. -/

/-- The cipher opens nothing but what this store has sealed. -/
def Unforged (F : Formats S V) (prim : Primitives) (made : List (Block 32 × S)) : Prop :=
  ∀ key blob aad json, openStandard prim key blob aad = .ok json →
    ∃ r ∈ made, r.1 = key ∧ F.toJson r.2 = json

/-- The entry is the one that was last set. -/
def Entered (F : Formats S V) (st : Store S V) : Prop :=
  st.entry = st.committed.map fun c => F.encodeEntry c.1 (F.epoch c.2)

theorem Entered.begin (h : Entered F st) (s : S) (missed : Bool) (key : Block 32)
    (nonce : Block 24) : Entered F (beginStore F prim st s missed key nonce) := by
  rw [beginStore]
  split
  · exact h
  · exact h

theorem Entered.advance (h : Entered F st) (w : Writer S) : Entered F (advance F st w) := by
  cases w with
  | storing s key blob stage =>
    cases stage with
    | write => exact h
    | sync => exact h
    | rename => exact h
    | syncDir => exact h
    | setKey => rfl
  | removing => exact h
  | deleting => rfl

theorem Entered.step (h : Entered F st) (hstep : step F prim st a = some st') :
    Entered F st' := by
  cases a with
  | store s missed key nonce =>
    simp only [Sealed.step] at hstep
    split at hstep
    · obtain rfl := Option.some.inj hstep
      exact h.begin s missed key nonce
    · cases hstep
  | update f missed key nonce =>
    simp only [Sealed.step] at hstep
    split at hstep
    · obtain rfl := Option.some.inj hstep
      exact h.begin _ missed key nonce
    · cases hstep
  | clear =>
    simp only [Sealed.step] at hstep
    split at hstep
    · obtain rfl := Option.some.inj hstep
      exact h
    · cases hstep
  | advance =>
    obtain ⟨w, -, rfl⟩ := Option.map_eq_some_iff.mp hstep
    exact h.advance w
  | fail =>
    simp only [Sealed.step] at hstep
    split at hstep
    · cases hstep
    · obtain rfl := Option.some.inj hstep
      exact h
    · obtain rfl := Option.some.inj hstep
      exact h
  | crash i torn =>
    obtain ⟨file, -, rfl⟩ := Option.map_eq_some_iff.mp hstep
    exact h
  | tamper file =>
    obtain rfl := Option.some.inj hstep
    exact h

theorem ofNat_ofBe (e : UInt32) : UInt32.ofNat (Bytes.ofBe (Bytes.u32be e)) = e := by
  rw [Bytes.ofBe_u32be, UInt32.ofNat_toNat]

/-- A session that is nothing but its epoch. -/
def epochs : Formats UInt32 (Block 32 × UInt32) where
  epoch s := s
  toJson := Bytes.u32be
  fromJson json := some (UInt32.ofNat (Bytes.ofBe json))
  encodeEntry key e := (key, e)
  decodeEntry := some
  fromJson_toJson s := by rw [ofNat_ofBe]
  decode_encode _ _ := rfl

def blankKey : Block 32 := ⟨List.replicate 32 0, length_zeros32⟩

def blankNonce : Block 24 := ⟨List.replicate 24 0, length_zeros24⟩

section Once

variable {key : Block 32} {nonce : Block 24} {aad msg : Bytes}

theorem once_tag {k : Block 32} {n : Block 24} {a m ct : Bytes}
    (h : (if k = key ∧ n = nonce ∧ a = aad ∧ m = msg then some (m ++ blankTag) else none) =
      some ct) : ct.length = m.length + 16 := by
  split at h
  · obtain rfl := Option.some.inj h
    rw [List.length_append]
    rfl
  · cases h

theorem once_opens {k : Block 32} {n : Block 24} {a m ct : Bytes}
    (h : (if k = key ∧ n = nonce ∧ a = aad ∧ m = msg then some (m ++ blankTag) else none) =
      some ct) :
    (if k = key ∧ n = nonce ∧ a = aad ∧ ct = msg ++ blankTag then some msg else none) =
      some m := by
  split at h
  · rename_i heq
    obtain ⟨rfl, rfl, rfl, rfl⟩ := heq
    obtain rfl := Option.some.inj h
    exact if_pos ⟨rfl, rfl, rfl, rfl⟩
  · cases h

/-- A cipher for one message. -/
def once (key : Block 32) (nonce : Block 24) (aad msg : Bytes) : Primitives where
  mac _ _ := blankKey
  encrypt k n a m :=
    if k = key ∧ n = nonce ∧ a = aad ∧ m = msg then some (m ++ blankTag) else none
  decrypt k n a ct :=
    if k = key ∧ n = nonce ∧ a = aad ∧ ct = msg ++ blankTag then some msg else none
  tag := once_tag
  opens := once_opens

theorem once_unforged {F : Formats S V} {s : S} {made : List (Block 32 × S)}
    (h : (key, s) ∈ made) : Unforged F (once key nonce aad (F.toJson s)) made := by
  intro k blob a json hopen
  cases blob with
  | nil => cases hopen
  | cons v rest =>
    rw [openStandard] at hopen
    split at hopen
    · cases hopen
    · split at hopen
      · cases hopen
      · split at hopen
        · cases hopen
        · rename_i plain hdecrypt
          simp only [once] at hdecrypt
          split at hdecrypt
          · rename_i heq
            obtain rfl := Except.ok.inj hopen
            exact ⟨(key, s), h, heq.1.symm, Option.some.inj hdecrypt⟩
          · cases hdecrypt

end Once

/-- The blob opens as the session. -/
def Opens (F : Formats S V) (prim : Primitives) (key : Block 32) (blob : Bytes) (s : S) : Prop :=
  openStandard prim key blob (sessionAad (F.epoch s)) = .ok (F.toJson s)

/-- How far a writer has come, when nothing else touches the files. -/
def InFlight (F : Formats S V) (prim : Primitives) (st : Store S V) : Writer S → Prop
  | .storing s key blob stage => Opens F prim key blob s ∧
      match stage with
      | .write => True
      | .sync => st.tmp = some ⟨blob, false⟩
      | .rename => st.tmp = some ⟨blob, true⟩
      | .syncDir => st.final = some ⟨blob, true⟩
      | .setKey => st.final = some ⟨blob, true⟩ ∧ st.crashed = [st.final]
  | .removing => True
  | .deleting => True

/-- Where `beginStore` leaves a store that it changes. -/
theorem beginStore_cases (F : Formats S V) (prim : Primitives) (st : Store S V) (s : S) (missed : Bool) (key : Block 32)
    (nonce : Block 24) :
    beginStore F prim st s missed key nonce = st ∨ ∃ k blob,
      k = wrapKey F (if missed then none else st.entry) key ∧ Opens F prim k blob s ∧
        beginStore F prim st s missed key nonce =
          { st with writer := some (.storing s k blob .write), made := st.made ++ [(k, s)] } := by
  rw [beginStore]
  cases hseal : sealStandard prim (wrapKey F (if missed then none else st.entry) key) nonce
      (F.toJson s) (sessionAad (F.epoch s)) with
  | error e => exact .inl rfl
  | ok blob => exact .inr ⟨_, blob, rfl, openStandard_seal hseal, rfl⟩

def Flying (F : Formats S V) (prim : Primitives) (st : Store S V) : Prop :=
  ∀ w, st.writer = some w → InFlight F prim st w

theorem Flying.begin (h : Flying F prim st) (s : S) (missed : Bool) (key : Block 32)
    (nonce : Block 24) : Flying F prim (beginStore F prim st s missed key nonce) := by
  obtain heq | ⟨k, blob, -, hopens, heq⟩ := beginStore_cases F prim st s missed
    key nonce
  · rwa [heq]
  · rw [heq]
    intro w hw
    obtain rfl := Option.some.inj hw
    exact ⟨hopens, trivial⟩

theorem Flying.advance {w : Writer S} (h : InFlight F prim st w) :
    Flying F prim (advance F st w) := by
  intro w' hw'
  cases w with
  | storing s key blob stage =>
    obtain ⟨hopens, hstage⟩ := h
    cases stage with
    | write =>
      obtain rfl := Option.some.inj hw'
      exact ⟨hopens, rfl⟩
    | sync =>
      obtain rfl := Option.some.inj hw'
      exact ⟨hopens, by simp only [Sealed.advance, hstage, Option.map_some]⟩
    | rename =>
      obtain rfl := Option.some.inj hw'
      exact ⟨hopens, hstage⟩
    | syncDir =>
      obtain rfl := Option.some.inj hw'
      exact ⟨hopens, hstage, rfl⟩
    | setKey => cases hw'
  | removing =>
    obtain rfl := Option.some.inj hw'
    trivial
  | deleting => cases hw'

def tampers : Action S → Bool
  | .tamper _ => true
  | _ => false

theorem Flying.step (h : Flying F prim st) (hquiet : tampers a = false)
    (hstep : step F prim st a = some st') : Flying F prim st' := by
  have hidle : ∀ {t : Store S V}, t.writer = none → Flying F prim t := by
    intro t ht w hw
    rw [ht] at hw
    cases hw
  cases a with
  | store s missed key nonce =>
    simp only [Sealed.step] at hstep
    split at hstep
    · obtain rfl := Option.some.inj hstep
      exact h.begin s missed key nonce
    · cases hstep
  | update f missed key nonce =>
    simp only [Sealed.step] at hstep
    split at hstep
    · obtain rfl := Option.some.inj hstep
      exact h.begin _ missed key nonce
    · cases hstep
  | clear =>
    simp only [Sealed.step] at hstep
    split at hstep
    · obtain rfl := Option.some.inj hstep
      intro w hw
      obtain rfl := Option.some.inj hw
      trivial
    · cases hstep
  | advance =>
    obtain ⟨w, hw, rfl⟩ := Option.map_eq_some_iff.mp hstep
    exact Flying.advance (h w hw)
  | fail =>
    simp only [Sealed.step] at hstep
    split at hstep
    · cases hstep
    · obtain rfl := Option.some.inj hstep
      intro w hw
      obtain rfl := Option.some.inj hw
      trivial
    · obtain rfl := Option.some.inj hstep
      exact hidle rfl
  | crash i torn =>
    obtain ⟨file, -, rfl⟩ := Option.map_eq_some_iff.mp hstep
    exact hidle rfl
  | tamper file => cases hquiet

/-- A session of the epoch is stored again, as a refresh does; no sign-out, nothing wrong with the
entry. -/
def Refreshes (F : Formats S V) (e : UInt32) : Action S → Prop
  | .store s missed _ _ => F.epoch s = e ∧ missed = false
  | .update f missed _ _ => (∀ s, F.epoch s = e → F.epoch (f s) = e) ∧ missed = false
  | .clear => False
  | .tamper _ => False
  | _ => True

/-- The session, or one sealed since. -/
def Since (n : ℕ) (key : Block 32) (s : S) (st : Store S V) (s' : S) : Prop :=
  s' = s ∨ (key, s') ∈ st.made.drop n

/-- The file reads as one of the sessions, and is on disk. -/
def Reads (F : Formats S V) (prim : Primitives) (n : ℕ) (key : Block 32) (s : S) (st : Store S V)
    (file : Option File) : Prop :=
  ∃ s' blob, file = some ⟨blob, true⟩ ∧ F.epoch s' = F.epoch s ∧ Since n key s st s' ∧
    Opens F prim key blob s'

/-- The session is signed in, and stays so whatever step comes. -/
structure Kept (F : Formats S V) (prim : Primitives) (n : ℕ) (key : Block 32) (s : S)
    (st : Store S V) : Prop where
  entry : st.entry = some (F.encodeEntry key (F.epoch s))
  length : n ≤ st.made.length
  final : Reads F prim n key s st st.final
  crashed : ∀ file ∈ st.crashed, Reads F prim n key s st file
  flying : Flying F prim st
  writer : ∀ w, st.writer = some w → ∃ s' blob stage, w = .storing s' key blob stage ∧
    F.epoch s' = F.epoch s ∧ Since n key s st s'

variable {n : ℕ} {key : Block 32}

theorem Kept.load (h : Kept F prim n key s st) :
    ∃ s', loadSessionWrapped F prim st = some s' ∧ F.epoch s' = F.epoch s ∧
      Since n key s st s' := by
  obtain ⟨s', blob, hfinal, hepoch, hsince, hopens⟩ := h.final
  refine ⟨s', ?_, hepoch, hsince⟩
  rw [Opens, hepoch] at hopens
  simp only [loadSessionWrapped, h.entry, hfinal, F.decode_encode, hopens, F.fromJson_toJson,
    hepoch, if_true]

theorem Kept.begin {s' : S} (h : Kept F prim n key s st) (hs : F.epoch s' = F.epoch s)
    (fresh : Block 32) (nonce : Block 24) :
    Kept F prim n key s (beginStore F prim st s' false fresh nonce) := by
  have hflying := h.flying.begin s' false fresh nonce
  obtain heq | ⟨k, blob, hk, hopens, heq⟩ := beginStore_cases F prim st s' false
    fresh nonce
  · rwa [heq]
  · have hkey : k = key := by
      rw [hk, if_neg Bool.false_ne_true, h.entry, wrapKey, Option.bind_some, F.decode_encode]
      rfl
    subst hkey
    have hmade : (st.made ++ [(k, s')]).drop n = st.made.drop n ++ [(k, s')] :=
      List.drop_append_of_le_length h.length
    have hsince : ∀ t, Since n k s st t → Since n k s
        { st with
          writer := some (.storing s' k blob .write)
          made := st.made ++ [(k, s')] } t := by
      intro t ht
      obtain rfl | ht := ht
      · exact .inl rfl
      · exact .inr (by rw [hmade]; exact List.mem_append_left _ ht)
    have hreads : ∀ file, Reads F prim n k s st file → Reads F prim n k s
        { st with
          writer := some (.storing s' k blob .write)
          made := st.made ++ [(k, s')] } file := by
      intro file hfile
      obtain ⟨t, b, hb, hepoch, ht, hopens⟩ := hfile
      exact ⟨t, b, hb, hepoch, hsince t ht, hopens⟩
    rw [heq] at hflying ⊢
    refine ⟨h.entry, ?_, hreads _ h.final, fun file hfile => hreads file (h.crashed file hfile),
      hflying, fun w hw => ?_⟩
    · rw [List.length_append]
      exact Nat.le_add_right_of_le h.length
    · obtain rfl := Option.some.inj hw
      exact ⟨s', blob, .write, rfl, hs, .inr (by rw [hmade]; simp)⟩

theorem Kept.advance {w : Writer S} (h : Kept F prim n key s st) (hw : st.writer = some w) :
    Kept F prim n key s (advance F st w) := by
  have hflying := Flying.advance (h.flying w hw)
  obtain ⟨s', blob, stage, rfl, hs, hsince⟩ := h.writer w hw
  obtain ⟨hopens, hstage⟩ := h.flying _ hw
  have hwriter : ∀ (t : Store S V) (stage : Stage), t.made = st.made →
      t.writer = some (.storing s' key blob stage) → ∀ w, t.writer = some w →
      ∃ s' blob stage, w = .storing s' key blob stage ∧ F.epoch s' = F.epoch s ∧
        Since n key s t s' := by
    intro t stage hmade ht w hw
    rw [ht] at hw
    obtain rfl := Option.some.inj hw
    exact ⟨s', blob, stage, rfl, hs, by rw [Since, hmade]; exact hsince⟩
  have hnew : Reads F prim n key s st (some ⟨blob, true⟩) := ⟨s', blob, rfl, hs, hsince, hopens⟩
  cases stage with
  | write =>
    exact ⟨h.entry, h.length, h.final, h.crashed, hflying, hwriter _ .sync rfl rfl⟩
  | sync =>
    exact ⟨h.entry, h.length, h.final, h.crashed, hflying, hwriter _ .rename rfl rfl⟩
  | rename =>
    have htmp : Reads F prim n key s st st.tmp := by
      have heq : st.tmp = some ⟨blob, true⟩ := hstage
      rwa [heq]
    refine ⟨h.entry, h.length, htmp, fun file hfile => ?_, hflying, hwriter _ .syncDir rfl rfl⟩
    obtain hfile | hfile := List.mem_append.mp hfile
    · exact h.crashed file hfile
    · rw [List.mem_singleton.mp hfile]
      exact htmp
  | syncDir =>
    refine ⟨h.entry, h.length, h.final, fun file hfile => ?_, hflying, hwriter _ .setKey rfl rfl⟩
    rw [List.mem_singleton.mp hfile]
    exact h.final
  | setKey =>
    refine ⟨by rw [Sealed.advance, hs], h.length, h.final, h.crashed, hflying, fun w hw => ?_⟩
    cases hw

theorem Kept.idle {final tmp : Option File} {crashed : List (Option File)}
    (h : Kept F prim n key s st) (hfinal : Reads F prim n key s st final)
    (hcrashed : ∀ file ∈ crashed, Reads F prim n key s st file) :
    Kept F prim n key s
      { st with final := final, crashed := crashed, tmp := tmp, writer := none } :=
  ⟨h.entry, h.length, hfinal, hcrashed, fun w hw => (by cases hw), fun w hw => (by cases hw)⟩

theorem Kept.step (h : Kept F prim n key s st) (ha : Refreshes F (F.epoch s) a)
    (hstep : step F prim st a = some st') : Kept F prim n key s st' := by
  cases a with
  | store s' missed fresh nonce =>
    obtain ⟨hs', rfl⟩ := ha
    simp only [Sealed.step] at hstep
    split at hstep
    · obtain rfl := Option.some.inj hstep
      exact h.begin hs' fresh nonce
    · cases hstep
  | update f missed fresh nonce =>
    obtain ⟨hf, rfl⟩ := ha
    simp only [Sealed.step] at hstep
    split at hstep
    · rename_i t hwriter hload
      obtain rfl := Option.some.inj hstep
      obtain ⟨t', ht', hepoch, -⟩ := h.load
      obtain rfl := Option.some.inj (hload.symm.trans ht')
      exact h.begin (hf t hepoch) fresh nonce
    · cases hstep
  | clear => cases ha
  | advance =>
    obtain ⟨w, hw, rfl⟩ := Option.map_eq_some_iff.mp hstep
    exact h.advance hw
  | fail =>
    simp only [Sealed.step] at hstep
    split at hstep
    · cases hstep
    · rename_i hw
      obtain ⟨s', blob, stage, heq, -⟩ := h.writer _ hw
      cases heq
    · obtain rfl := Option.some.inj hstep
      exact h.idle h.final h.crashed
  | crash i torn =>
    obtain ⟨file, hfile, rfl⟩ := Option.map_eq_some_iff.mp hstep
    have hreads : Reads F prim n key s st (afterCrash torn file) := by
      obtain ⟨s', blob, rfl, hrest⟩ := h.crashed file (List.mem_of_getElem? hfile)
      exact ⟨s', blob, rfl, hrest⟩
    refine h.idle hreads fun file hfile => ?_
    rw [List.mem_singleton.mp hfile]
    exact hreads
  | tamper file => cases ha

/-- Once a store has gone through, no crash and no failure of a store in the same epoch signs the
device out: at every moment the session that was stored loads, or one stored since. -/
theorem refresh_never_signs_out {before after : List (Action S)} {r : Store S V} {blob : Bytes}
    (hbefore : ∀ a ∈ before, tampers a = false)
    (hr : exec (step F prim) fresh before = some r)
    (hwriter : r.writer = some (.storing s key blob .setKey))
    (hafter : ∀ a ∈ after, Refreshes F (F.epoch s) a)
    (hu : exec (step F prim) r (.advance :: after) = some u) :
    ∃ s', loadSessionWrapped F prim u = some s' ∧ F.epoch s' = F.epoch s ∧
      Since r.made.length key s u s' := by
  have hflying : Flying F prim r :=
    exec_events (fun t a t' h ha ht => Flying.step h ha ht) hbefore (fun w hw => by cases hw) hr
  obtain ⟨hopens, hfinal, hcrashed⟩ := hflying _ hwriter
  obtain ⟨t, ht, htail⟩ := (exec_cons _ _ _ _).mp hu
  have hkept : Kept F prim r.made.length key s t := by
    obtain ⟨w, hw, rfl⟩ := Option.map_eq_some_iff.mp ht
    rw [hwriter] at hw
    obtain rfl := Option.some.inj hw
    have hreads : Reads F prim r.made.length key s (Sealed.advance F r (.storing s key blob .setKey))
        r.final := ⟨s, blob, hfinal, rfl, .inl rfl, hopens⟩
    refine ⟨rfl, Nat.le_refl _, hreads, fun file hfile => ?_, fun w hw => (by cases hw),
      fun w hw => (by cases hw)⟩
    have hmem : file ∈ r.crashed := hfile
    rw [hcrashed, List.mem_singleton] at hmem
    rw [hmem]
    exact hreads
  have hlast := exec_events (fun t a t' h ha ht => Kept.step h ha ht) hafter hkept htail
  exact hlast.load

/-- A second session is stored, the machine goes down between its rename and the sync of the
directory, and the directory comes back without it. -/
theorem refresh_never_signs_out_crash :
    ∃ u : Store UInt32 (Block 32 × UInt32), ∃ s',
      loadSessionWrapped epochs Primitives.plain u = some s' ∧ s' = (2 : UInt32) ∧
        Since 1 blankKey 2 u s' := by
  have hrun : ∃ r : Store UInt32 (Block 32 × UInt32),
      exec (step epochs Primitives.plain) fresh
        [.store 2 false blankKey blankNonce, .advance, .advance, .advance, .advance] = some r ∧
      r.made.length = 1 ∧
      (∃ blob, r.writer = some (.storing 2 blankKey blob .setKey)) ∧
      ∃ u, exec (step epochs Primitives.plain) r
        [.advance, .store 2 false blankKey blankNonce, .advance, .advance, .advance,
          .crash 0 []] = some u := ⟨_, rfl, rfl, ⟨_, rfl⟩, _, rfl⟩
  obtain ⟨r, hr, hlen, ⟨blob, hwriter⟩, u, hu⟩ := hrun
  obtain ⟨s', hload, hs, hsince⟩ := refresh_never_signs_out (by simp [tampers]) hr hwriter
    (by simp [Refreshes, epochs]) hu
  rw [hlen] at hsince
  exact ⟨u, s', hload, hs, hsince⟩

end YapStack.Credentials.Sealed
