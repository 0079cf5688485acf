/-
Cobalt.Lib.Swar — tests on all bytes of a word at once.

A word holds its bytes with the first one lowest. Subtracting a small
constant from every byte sets the top bit of the bytes below it, and a
borrow can only disturb bytes above the first of them; so the lowest mark
of `belowMask` is in the first byte below the constant, whatever stands in
the marks above it. `Marks` says just that much of a mask, is kept by
bitwise or, and is enough to find the byte by counting trailing zeros.
-/
import Mathlib

namespace Cobalt.Swar

open List

/-! ## Bytes in a word -/

/-- The word that holds `bs`, the first byte lowest. -/
def pack : List UInt8 → Nat
  | [] => 0
  | b :: bs => b.toNat + 256 * pack bs

/-- The byte `c` in each of `n` lanes. -/
def lanes (c : Nat) : Nat → Nat
  | 0 => 0
  | n + 1 => c + 256 * lanes c n

lemma pack_lt (bs : List UInt8) : pack bs < 256 ^ bs.length := by
  induction bs with
  | nil => exact Nat.one_pos
  | cons b bs ih =>
    have := b.toNat_lt
    rw [pack, length_cons, pow_succ]
    omega

lemma lanes_lt {c : Nat} (hc : c < 256) (n : Nat) : lanes c n < 256 ^ n := by
  induction n with
  | zero => exact Nat.one_pos
  | succ n ih => rw [lanes, pow_succ]; omega

variable {bs : List UInt8}

lemma pack_inj {bs' : List UInt8} (hlen : bs.length = bs'.length) (h : pack bs = pack bs') :
    bs = bs' := by
  induction bs generalizing bs' with
  | nil => exact (length_eq_zero_iff.mp hlen.symm).symm
  | cons b bs ih =>
    cases bs' with
    | nil => cases hlen
    | cons b' bs' =>
      have hb := b.toNat_lt
      have hb' := b'.toNat_lt
      simp only [pack] at h
      have hlow : b.toNat = b'.toNat := by omega
      rw [UInt8.toNat_inj.mp hlow, ih (Nat.succ.inj hlen) (by omega)]

variable {m x m' y n w : Nat}

/-- Two words that agree in their first lane and in the rest are equal. -/
lemma eq_of_lane (hlow : m % 2 ^ 8 = m' % 2 ^ 8) (hhigh : m / 2 ^ 8 = m' / 2 ^ 8) : m = m' := by
  omega

lemma and_lane (X Y : Nat) (hx : x < 256) (hy : y < 256) :
    (x + 256 * X) &&& (y + 256 * Y) = (x &&& y) + 256 * (X &&& Y) := by
  have hlt : x &&& y < 256 := lt_of_le_of_lt Nat.and_le_left hx
  apply eq_of_lane
  · rw [Nat.and_mod_two_pow, show (x + 256 * X) % 2 ^ 8 = x by omega,
      show (y + 256 * Y) % 2 ^ 8 = y by omega]
    omega
  · rw [Nat.and_div_two_pow, show (x + 256 * X) / 2 ^ 8 = X by omega,
      show (y + 256 * Y) / 2 ^ 8 = Y by omega]
    omega

lemma xor_lane (X Y : Nat) (hx : x < 256) (hy : y < 256) :
    (x + 256 * X) ^^^ (y + 256 * Y) = (x ^^^ y) + 256 * (X ^^^ Y) := by
  have hlt : x ^^^ y < 2 ^ 8 := Nat.xor_lt_two_pow hx hy
  apply eq_of_lane
  · rw [Nat.xor_mod_two_pow, show (x + 256 * X) % 2 ^ 8 = x by omega,
      show (y + 256 * Y) % 2 ^ 8 = y by omega]
    omega
  · rw [Nat.xor_div_two_pow, show (x + 256 * X) / 2 ^ 8 = X by omega,
      show (y + 256 * Y) / 2 ^ 8 = Y by omega]
    omega

lemma or_lane (X Y : Nat) : 256 * X ||| 256 * Y = 256 * (X ||| Y) := by
  apply eq_of_lane
  · rw [Nat.or_mod_two_pow, show 256 * X % 2 ^ 8 = 0 by omega, show 256 * Y % 2 ^ 8 = 0 by omega]
    simp only [Nat.or_self]
    omega
  · rw [Nat.or_div_two_pow, show 256 * X / 2 ^ 8 = X by omega, show 256 * Y / 2 ^ 8 = Y by omega]
    omega

lemma pack_xor (c : UInt8) (bs : List UInt8) :
    pack bs ^^^ lanes c.toNat bs.length = pack (bs.map (· ^^^ c)) := by
  induction bs with
  | nil => exact Nat.xor_self 0
  | cons b bs ih =>
    rw [pack, length_cons, lanes, xor_lane _ _ b.toNat_lt c.toNat_lt, ih, map_cons, pack,
      UInt8.toNat_xor]

/-! ## Marks -/

/-- The lowest mark of `m` is in the first byte that satisfies `P`. -/
def Marks (P : UInt8 → Bool) : List UInt8 → Nat → Prop
  | [], m => m = 0
  | b :: bs, m => if P b then m % 256 = 0x80 else ∃ m', m = 256 * m' ∧ Marks P bs m'

variable {P Q : UInt8 → Bool}

lemma marks_pos {b : UInt8} (hb : P b = true) : Marks P (b :: bs) m ↔ m % 256 = 0x80 := by
  rw [Marks, if_pos hb]

lemma marks_neg {b : UInt8} (hb : P b = false) :
    Marks P (b :: bs) m ↔ ∃ m', m = 256 * m' ∧ Marks P bs m' := by
  rw [Marks, if_neg (by simp [hb])]

lemma Marks.or (h : Marks P bs m) (h' : Marks Q bs m') :
    Marks (fun b => P b || Q b) bs (m ||| m') := by
  induction bs generalizing m m' with
  | nil =>
    obtain rfl : m = 0 := h
    obtain rfl : m' = 0 := h'
    exact Nat.or_self 0
  | cons b bs ih =>
    have hmod : (m ||| m') % 256 = (m % 256) ||| (m' % 256) := Nat.or_mod_two_pow (n := 8)
    cases hP : P b with
    | true =>
      rw [marks_pos hP] at h
      rw [marks_pos (by simp [hP]), hmod, h]
      cases hQ : Q b with
      | true => rw [(marks_pos hQ).mp h']; exact Nat.or_self _
      | false =>
        obtain ⟨n', rfl, -⟩ := (marks_neg hQ).mp h'
        rw [Nat.mul_mod_right]
        exact Nat.or_zero _
    | false =>
      obtain ⟨n, rfl, hn⟩ := (marks_neg hP).mp h
      cases hQ : Q b with
      | true =>
        rw [marks_pos (by simp [hQ]), hmod, (marks_pos hQ).mp h', Nat.mul_mod_right]
        exact Nat.zero_or _
      | false =>
        obtain ⟨n', rfl, hn'⟩ := (marks_neg hQ).mp h'
        exact (marks_neg (by simp [hP, hQ])).mpr ⟨n ||| n', or_lane n n', ih hn hn'⟩

lemma Marks.congr (h : Marks P bs m) (hPQ : ∀ b, P b = Q b) : Marks Q bs m := by
  obtain rfl : P = Q := funext hPQ
  exact h

/-- Marks on the images of the bytes are marks on the bytes. -/
lemma Marks.of_map {f : UInt8 → UInt8} (h : Marks P (bs.map f) m) :
    Marks (fun b => P (f b)) bs m := by
  induction bs generalizing m with
  | nil => exact h
  | cons b bs ih =>
    rw [map_cons, Marks] at h
    rw [Marks]
    split
    · rw [if_pos ‹_›] at h; exact h
    · rw [if_neg ‹_›] at h
      obtain ⟨m', rfl, hm'⟩ := h
      exact ⟨m', rfl, ih hm'⟩

/-! ## Bytes below a constant -/

/-- The mask of the bytes below `c` in a word of `n` lanes. -/
def belowMask (c n w : Nat) : Nat :=
  (256 ^ n - lanes c n + w) % 256 ^ n &&& (256 ^ n - 1 - w) &&& lanes 0x80 n

lemma and_top (hx : x < 256) : x &&& 0x80 = if 0x80 ≤ x then 0x80 else 0 := by
  revert x
  decide +kernel

/-- A byte that is not below `c` leaves no mark and no borrow. -/
lemma belowMask_ge {c b : Nat} (hc : c ≤ 0x80) (hb : b < 256) (hcb : c ≤ b) (hw : w < 256 ^ n) :
    belowMask c (n + 1) (b + 256 * w) = 256 * belowMask c n w := by
  have hl := lanes_lt (c := c) (by omega) n
  have hsub : (256 ^ (n + 1) - lanes c (n + 1) + (b + 256 * w)) % 256 ^ (n + 1) =
      (b - c) + 256 * ((256 ^ n - lanes c n + w) % 256 ^ n) := by
    have : 256 ^ (n + 1) - lanes c (n + 1) + (b + 256 * w) =
        (b - c) + 256 * (256 ^ n - lanes c n + w) := by
      rw [lanes, pow_succ]
      omega
    rw [this, pow_succ, mul_comm (256 ^ n), Nat.mod_mul, Nat.add_mul_mod_self_left,
      Nat.add_mul_div_left _ _ (by omega), Nat.mod_eq_of_lt (by omega),
      Nat.div_eq_of_lt (by omega), zero_add]
  have hnot : 256 ^ (n + 1) - 1 - (b + 256 * w) = (255 - b) + 256 * (256 ^ n - 1 - w) := by
    rw [pow_succ]
    omega
  have hlow : (b - c) &&& (255 - b) &&& 0x80 = 0 := by
    rw [Nat.and_assoc, and_top (by omega)]
    split
    · rw [and_top (by omega), if_neg (by omega)]
    · exact Nat.and_zero _
  rw [belowMask, hsub, hnot, and_lane _ _ (by omega) (by omega), lanes,
    and_lane _ _ (lt_of_le_of_lt Nat.and_le_left (by omega)) (by omega), hlow, belowMask]
  omega

lemma belowMask_lt {c b : Nat} (hc : c ≤ 0x80) (hbc : b < c) (hw : w < 256 ^ n) :
    belowMask c (n + 1) (b + 256 * w) % 256 = 0x80 := by
  have hl := lanes_lt (c := c) (by omega) n
  have hsub : (256 ^ (n + 1) - lanes c (n + 1) + (b + 256 * w)) % 256 ^ (n + 1) % 256 =
      256 + b - c := by
    have hdvd : 256 ∣ 256 ^ (n + 1) := Dvd.intro_left (256 ^ n) rfl
    rw [Nat.mod_mod_of_dvd _ hdvd, lanes, pow_succ]
    omega
  have hnot : (256 ^ (n + 1) - 1 - (b + 256 * w)) % 256 = 255 - b := by
    rw [pow_succ]
    omega
  have hmod : ∀ x y : Nat, (x &&& y) % 256 = (x % 256) &&& (y % 256) :=
    fun x y => Nat.and_mod_two_pow (n := 8)
  rw [belowMask, hmod, hmod, hsub, hnot, lanes, Nat.add_mul_mod_self_left, Nat.and_assoc,
    and_top (by omega), if_pos (by omega), and_top (by omega), if_pos (by omega)]

lemma marks_below {c : Nat} (hc : c ≤ 0x80) (bs : List UInt8) :
    Marks (fun b => b.toNat < c) bs (belowMask c bs.length (pack bs)) := by
  induction bs with
  | nil => simp [Marks, belowMask, lanes]
  | cons b bs ih =>
    rw [Marks, length_cons, pack]
    split
    · rename_i hb
      exact belowMask_lt hc (by simpa using hb) (pack_lt bs)
    · rename_i hb
      exact ⟨_, belowMask_ge hc b.toNat_lt (by simpa using hb) (pack_lt bs), ih⟩

/-! ## Counting trailing zeros -/

/-- The number of trailing zeros of a word of `bits` bits. -/
def ctz : (bits w : Nat) → Nat
  | 0, _ => 0
  | n + 1, w => if w % 2 = 1 then 0 else 1 + ctz n (w / 2)

lemma ctz_lane (n m : Nat) : ctz (n + 8) (256 * m) = 8 + ctz n m := by
  have hstep : ∀ k j, ctz (k + 1) (2 * j) = 1 + ctz k j := by
    intro k j
    rw [ctz, if_neg (by omega), Nat.mul_div_cancel_left _ (by omega)]
  rw [show 256 * m = 2 * (2 * (2 * (2 * (2 * (2 * (2 * (2 * m))))))) by omega]
  simp only [show n + 8 = n + 7 + 1 from rfl, show n + 7 = n + 6 + 1 from rfl,
    show n + 6 = n + 5 + 1 from rfl, show n + 5 = n + 4 + 1 from rfl,
    show n + 4 = n + 3 + 1 from rfl, show n + 3 = n + 2 + 1 from rfl,
    show n + 2 = n + 1 + 1 from rfl, hstep]
  omega

lemma ctz_top (n : Nat) (h : m % 256 = 0x80) : ctz (n + 8) m = 7 := by
  have hstep : ∀ k j, j % 2 = 0 → ctz (k + 1) j = 1 + ctz k (j / 2) := by
    intro k j hj
    rw [ctz, if_neg (by omega)]
  rw [hstep _ m (by omega), hstep _ (m / 2) (by omega), hstep _ (m / 2 / 2) (by omega),
    hstep _ (m / 2 / 2 / 2) (by omega), hstep _ (m / 2 / 2 / 2 / 2) (by omega),
    hstep _ (m / 2 / 2 / 2 / 2 / 2) (by omega), hstep _ (m / 2 / 2 / 2 / 2 / 2 / 2) (by omega),
    ctz, if_pos (by omega)]

/-- No mark, no byte. -/
lemma Marks.eq_false (h : Marks P bs 0) : ∀ b ∈ bs, P b = false := by
  induction bs with
  | nil => exact fun _ h => absurd h not_mem_nil
  | cons b bs ih =>
    cases hb : P b with
    | true => exact absurd ((marks_pos hb).mp h) (by omega)
    | false =>
      obtain ⟨m', hm', h'⟩ := (marks_neg hb).mp h
      obtain rfl : m' = 0 := by omega
      exact forall_mem_cons.mpr ⟨hb, ih h'⟩

/-- The zeros below the lowest mark count the bytes before the first one. -/
lemma Marks.ctz (h : Marks P bs m) (hm : m ≠ 0) :
    Swar.ctz (8 * bs.length) m / 8 = bs.findIdx P ∧ ∃ b ∈ bs, P b = true := by
  induction bs generalizing m with
  | nil => exact absurd h hm
  | cons b bs ih =>
    rw [findIdx_cons, length_cons, Nat.mul_succ]
    cases hb : P b with
    | true =>
      rw [ctz_top _ ((marks_pos hb).mp h)]
      exact ⟨rfl, b, mem_cons_self, hb⟩
    | false =>
      obtain ⟨m', rfl, h'⟩ := (marks_neg hb).mp h
      obtain ⟨hidx, x, hx, hPx⟩ := ih h' (by omega)
      rw [ctz_lane, cond_false, ← hidx]
      exact ⟨by omega, x, mem_cons_of_mem b hx, hPx⟩

end Cobalt.Swar
