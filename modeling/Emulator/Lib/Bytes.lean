import Mathlib.Tactic

/-!
# Byte-addressed storage and big-endian fields

A file or a memory area is a function from offsets to bytes. `Bytes.write` replaces a
range, `beRead` decodes a big-endian field, `be` and `beTable` encode one field and a
table of fields.

* `beRead_be`, `beRead_beTable`: a field is read back as it was encoded;
* `beRead_write_of_disjoint`: a write elsewhere does not change a field.
-/

namespace Emulator

/-- Storage addressed by bytes. -/
abbrev Bytes := ℕ → UInt8

/-- The `len` bytes from `off` on are replaced by the first bytes of `src`. -/
def Bytes.write (f : Bytes) (off len : ℕ) (src : Bytes) : Bytes :=
  fun i => if off ≤ i ∧ i < off + len then src (i - off) else f i

/-- The bytes from `off` on. -/
def Bytes.from (f : Bytes) (off : ℕ) : Bytes := fun i => f (off + i)

/-- The big-endian field of `n` bytes at `o`. -/
def beRead (f : Bytes) (o : ℕ) : ℕ → ℕ
  | 0 => 0
  | n + 1 => beRead f o n * 256 + (f (o + n)).toNat

/-- The `w` bytes of `v`, most significant first. -/
def be (w v : ℕ) : Bytes := fun k => UInt8.ofNat (v / 256 ^ (w - 1 - k))

/-- The table `t`, an entry being `w` bytes long. -/
def beTable (w : ℕ) (t : ℕ → ℕ) : Bytes := fun i => be w (t (i / w)) (i % w)

variable {f g src : Bytes} {off len o w n i : ℕ}

theorem Bytes.write_of_mem (h : off ≤ i) (h' : i < off + len) : f.write off len src i = src (i - off) :=
  if_pos ⟨h, h'⟩

theorem Bytes.write_of_not_mem (h : i < off ∨ off + len ≤ i) : f.write off len src i = f i :=
  if_neg (by omega)

theorem Bytes.write_congr {src' : Bytes} (h : ∀ i < len, src i = src' i) :
    f.write off len src = f.write off len src' := by
  funext i
  unfold Bytes.write
  split_ifs with hi
  · exact h _ (by omega)
  · rfl

theorem Bytes.write_zero (f : Bytes) (off : ℕ) (src : Bytes) : f.write off 0 src = f := by
  funext i
  exact Bytes.write_of_not_mem (by omega)

/-- Two writes side by side of parts of the same bytes. -/
theorem Bytes.write_write (f : Bytes) (off len len' : ℕ) (src : Bytes) :
    (f.write off len src).write (off + len) len' (src.from len) = f.write off (len + len') src := by
  funext i
  unfold Bytes.write Bytes.from
  by_cases hlow : off ≤ i ∧ i < off + len
  · rw [if_neg (by omega), if_pos hlow, if_pos (by omega)]
  · by_cases hhigh : off + len ≤ i ∧ i < off + len + len'
    · rw [if_pos hhigh, if_pos (by omega)]
      congr 1
      omega
    · rw [if_neg hhigh, if_neg hlow, if_neg (by omega)]

/-- A part of a range is replaced, the rest is written back as it was. -/
theorem Bytes.write_back {f old src : Bytes} {off len off' len' : ℕ} (hin : off' + len' ≤ len)
    (hold : ∀ i < len, old i = f (off + i)) :
      f.write off len (old.write off' len' src) = f.write (off + off') len' src := by
  funext i
  unfold Bytes.write
  by_cases hpart : off + off' ≤ i ∧ i < off + off' + len'
  · rw [if_pos (by omega), if_pos (by omega), if_pos hpart]
    congr 1
    omega
  · rw [if_neg hpart]
    split_ifs with hrange hpart'
    · omega
    · rw [hold _ (by omega)]
      congr 1
      omega
    · rfl

theorem Bytes.from_from (f : Bytes) (off off' : ℕ) : (f.from off).from off' = f.from (off + off') := by
  funext i
  unfold Bytes.from
  rw [Nat.add_assoc]

theorem Bytes.from_apply (f : Bytes) (off i : ℕ) : f.from off i = f (off + i) := rfl

theorem beRead_congr {p : ℕ} (h : ∀ i < n, f (o + i) = g (p + i)) : beRead f o n = beRead g p n := by
  induction n with
  | zero => rfl
  | succ n ih =>
    unfold beRead
    rw [ih (fun i hi => h i (by omega)), h n (by omega)]

theorem beRead_lt (f : Bytes) (o n : ℕ) : beRead f o n < 256 ^ n := by
  induction n with
  | zero => simp [beRead]
  | succ n ih =>
    have hb : (f (o + n)).toNat < 256 := (f (o + n)).toNat_lt
    unfold beRead
    rw [pow_succ]
    omega

theorem beRead_from (f : Bytes) (off o n : ℕ) : beRead (f.from off) o n = beRead f (off + o) n :=
  beRead_congr fun i _ => by rw [Bytes.from_apply, Nat.add_assoc]

theorem beRead_write_of_disjoint (h : o + n ≤ off ∨ off + len ≤ o) :
    beRead (f.write off len src) o n = beRead f o n :=
  beRead_congr fun i hi => Bytes.write_of_not_mem (by omega)

theorem beRead_write_of_subset (h : off ≤ o) (h' : o + n ≤ off + len) :
    beRead (f.write off len src) o n = beRead src (o - off) n :=
  beRead_congr fun i hi => by
    rw [Bytes.write_of_mem (by omega) (by omega)]
    congr 1
    omega

theorem beRead_zero (h : ∀ i < n, f (o + i) = 0) : beRead f o n = 0 := by
  induction n with
  | zero => rfl
  | succ n ih =>
    unfold beRead
    rw [ih (fun i hi => h i (by omega)), h n (by omega)]
    rfl

/-- The first `n` bytes of the encoding hold the leading part of the value. -/
theorem beRead_be_take (v : ℕ) (h : n ≤ w) : beRead (be w v) 0 n = v / 256 ^ (w - n) % 256 ^ n := by
  induction n with
  | zero => simp [beRead, Nat.mod_one]
  | succ n ih =>
    have hw : w - n = w - (n + 1) + 1 := by omega
    have hd : v / 256 ^ (w - n) = v / 256 ^ (w - (n + 1)) / 256 := by
      rw [hw, pow_succ, Nat.div_div_eq_div_mul]
    unfold beRead
    rw [ih (by omega), hd, Nat.zero_add, be, UInt8.toNat_ofNat', show w - 1 - n = w - (n + 1) by omega]
    generalize v / 256 ^ (w - (n + 1)) = q
    rw [Nat.pow_succ 256 n, Nat.mul_comm (256 ^ n) 256, Nat.mod_mul]
    omega

theorem beRead_be (w v : ℕ) : beRead (be w v) 0 w = v % 256 ^ w := by
  rw [beRead_be_take v le_rfl, Nat.sub_self, pow_zero, Nat.div_one]

/-- **An encoded table is read back entry by entry.** -/
theorem beRead_beTable (t : ℕ → ℕ) (hw : 0 < w) : beRead (beTable w t) (w * i) w = t i % 256 ^ w := by
  rw [← beRead_be]
  refine beRead_congr fun k hk => ?_
  unfold beTable
  rw [Nat.mul_add_div hw, Nat.div_eq_of_lt hk, Nat.mul_add_mod, Nat.mod_eq_of_lt hk, Nat.add_zero,
    Nat.zero_add]

/-- A field that is written is read back. -/
theorem beRead_write_be (f : Bytes) (o w v : ℕ) : beRead (f.write o w (be w v)) o w = v % 256 ^ w := by
  rw [beRead_write_of_subset le_rfl le_rfl, Nat.sub_self, beRead_be]

end Emulator
