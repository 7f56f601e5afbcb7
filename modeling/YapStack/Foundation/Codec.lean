import Mathlib.Data.List.Basic
import YapStack.Foundation.Bytes

namespace YapStack.Codec

/-- What a reader takes off the front of its input, and what it leaves. -/
abbrev Reader (ε α : Type) := Bytes → Except ε (α × Bytes)

variable {ε α β : Type}

/-- A reader of a fixed number of bytes. -/
def takeExact (n : Nat) (short : ε) : Reader ε Bytes := fun b =>
  if b.length < n then .error short else .ok (b.take n, b.drop n)

/-- A big-endian number of `width` bytes. -/
def takeBe (width : Nat) (short : ε) : Reader ε Nat := fun b =>
  (takeExact width short b).map (fun p => (Bytes.ofBe p.1, p.2))

/-- A four-byte length, then that many bytes. -/
def takeBlock (short truncated : ε) : Reader ε Bytes := fun b =>
  (takeBe 4 short b).bind (fun p => takeExact p.1 truncated p.2)

/-- `count` values, one after the other. -/
def takeMany (read : Reader ε α) : Nat → Reader ε (List α)
  | 0, b => .ok ([], b)
  | count + 1, b =>
    (read b).bind (fun p => (takeMany read count p.2).map (fun q => (p.1 :: q.1, q.2)))

/-- The reader takes off exactly these bytes, whatever follows them. -/
def Takes (read : Reader ε α) (bytes : Bytes) (a : α) : Prop :=
  ∀ rest, read (bytes ++ rest) = .ok (a, rest)

theorem takeExact_takes (short : ε) (b : Bytes) : Takes (takeExact b.length short) b b := by
  intro rest
  simp [takeExact]

theorem takeBe_takes (short : ε) {width n : Nat} (h : n < 256 ^ width) :
    Takes (takeBe width short) (Bytes.be width n) n := by
  intro rest
  have hread := takeExact_takes short (Bytes.be width n) rest
  rw [Bytes.length_be] at hread
  simp only [takeBe, hread, Except.map, Bytes.ofBe_be, Nat.mod_eq_of_lt h]

theorem takeBlock_takes (short truncated : ε) {b : Bytes} (h : b.length < 256 ^ 4) :
    Takes (takeBlock short truncated) (Bytes.be 4 b.length ++ b) b := by
  intro rest
  rw [List.append_assoc, takeBlock, takeBe_takes short h]
  exact takeExact_takes truncated b rest

theorem takeMany_takes {read : Reader ε α} {put : α → Bytes} {as : List α}
    (h : ∀ a ∈ as, Takes read (put a) a) : Takes (takeMany read as.length) (as.flatMap put) as := by
  induction as with
  | nil => exact fun rest => rfl
  | cons a as ih =>
    intro rest
    have ih := ih (fun b hb => h b (List.mem_cons_of_mem a hb)) rest
    rw [List.flatMap_cons, List.append_assoc, List.length_cons, takeMany,
      h a List.mem_cons_self]
    simp only [Except.bind, ih, Except.map]

theorem Takes.bind {read : Reader ε α} {next : α → Reader ε β} {b c : Bytes} {a : α} {r : β}
    (h : Takes read b a) (hn : Takes (next a) c r) :
    Takes (fun i => (read i).bind (fun p => next p.1 p.2)) (b ++ c) r := by
  intro rest
  rw [List.append_assoc]
  simp only [h (c ++ rest), Except.bind, hn rest]

/-- Whatever the reader takes off is what is put for its result. -/
def Returns (read : Reader ε α) (put : α → Bytes) (ok : α → Prop) : Prop :=
  ∀ b a rest, read b = .ok (a, rest) → ok a ∧ b = put a ++ rest

theorem map_ok {f : α → β} {x : Except ε α} {b : β} :
    x.map f = .ok b ↔ ∃ a, x = .ok a ∧ f a = b := by
  cases x <;> simp [Except.map]

theorem bind_ok {f : α → Except ε β} {x : Except ε α} {b : β} :
    x.bind f = .ok b ↔ ∃ a, x = .ok a ∧ f a = .ok b := by
  cases x <;> simp [Except.bind]

theorem takeExact_returns (n : Nat) (short : ε) :
    Returns (takeExact n short) (fun b => b) (fun b => b.length = n) := by
  intro b a rest h
  simp only [takeExact] at h
  split at h
  · cases h
  · rename_i hlong
    cases h
    exact ⟨List.length_take_of_le (by omega), (List.take_append_drop n b).symm⟩

theorem takeBe_returns (width : Nat) (short : ε) :
    Returns (takeBe width short) (Bytes.be width) (fun n => n < 256 ^ width) := by
  intro b n rest h
  obtain ⟨⟨a, rest'⟩, ha, heq⟩ := map_ok.mp h
  cases heq
  obtain ⟨rfl, rfl⟩ := takeExact_returns width short b a rest' ha
  exact ⟨Bytes.ofBe_lt a, by rw [Bytes.be_ofBe]⟩

theorem takeBlock_returns (short truncated : ε) :
    Returns (takeBlock short truncated) (fun b => Bytes.be 4 b.length ++ b)
      (fun b => b.length < 256 ^ 4) := by
  intro b a rest h
  obtain ⟨⟨n, rest'⟩, hn, ha⟩ := bind_ok.mp h
  obtain ⟨hlt, rfl⟩ := takeBe_returns 4 short b n rest' hn
  obtain ⟨rfl, rfl⟩ := takeExact_returns n truncated rest' a rest ha
  exact ⟨hlt, (List.append_assoc _ _ _).symm⟩

theorem takeMany_returns {read : Reader ε α} {put : α → Bytes} {ok : α → Prop}
    (hread : Returns read put ok) (count : Nat) :
    Returns (takeMany read count) (fun as => as.flatMap put)
      (fun as => as.length = count ∧ ∀ a ∈ as, ok a) := by
  induction count with
  | zero =>
    intro b as rest h
    cases h
    exact ⟨⟨rfl, by simp⟩, rfl⟩
  | succ count ih =>
    intro b as rest h
    obtain ⟨⟨a, rest'⟩, ha, h⟩ := bind_ok.mp h
    obtain ⟨⟨as', rest''⟩, has, heq⟩ := map_ok.mp h
    cases heq
    obtain ⟨hok, rfl⟩ := hread b a rest' ha
    obtain ⟨⟨hlen, hall⟩, rfl⟩ := ih rest' as' rest'' has
    refine ⟨⟨by rw [List.length_cons, hlen], fun x hx => ?_⟩, ?_⟩
    · obtain rfl | hx := List.mem_cons.mp hx
      · exact hok
      · exact hall x hx
    · exact (List.append_assoc (put a) (as'.flatMap put) rest'').symm

end YapStack.Codec
