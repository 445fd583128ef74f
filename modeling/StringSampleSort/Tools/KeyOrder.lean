import StringSampleSort.Library.LcpOrder
import StringSampleSort.Tools.KeyPacking

/-!
# Keys against comparisons

The sorters order by `get_uint64` while classifying and partitioning, and by `is_less`
and `is_leq` in the insertion sorts.  This module settles for every string set when the
two orders are the same, and when a key with a zero low byte means that a string has
ended.

## Main results

- `smear_lt_iff`: the order of keys of signed characters
- `keyOrderAgrees_iff`: when the key order is the comparison order
- `zeroByteFinished_iff`: when equal keys with a zero low byte mean equal strings
-/

namespace StringSampleSort

open Library

/-! ## The order of smeared windows -/

/-- Position of the last byte `≥ 0x80` behind the first byte, zero if there is none. -/
def lastHigh : List ℕ → ℕ
  | [] => 0
  | _ :: t => if anyHigh t then lastHigh t + 1 else 0

/-- Position of the last byte `≥ 0x80` behind the first bytes of two windows, zero if there
is none.  Sign extension hides what stands in front of it. -/
def lastHighOf (u v : List ℕ) : ℕ := max (lastHigh u) (lastHigh v)

/-- The first position, from the last byte `≥ 0x80` on, at which two windows differ. -/
def keyMismatch (u v : List ℕ) : ℕ :=
  lastHighOf u v + lcpLen (u.drop (lastHighOf u v)) (v.drop (lastHighOf u v))

theorem lastHighOf_comm (u v : List ℕ) : lastHighOf u v = lastHighOf v u := max_comm _ _

theorem smear_of_not_anyHigh {w : List ℕ} (h : anyHigh w = false) : smear w = w := by
  induction w with
  | nil => rfl
  | cons b t ih =>
    rw [anyHigh_cons, Bool.or_eq_false_iff] at h
    simp [smear, h.2, ih h.2]

/-- A window with a high byte smears to something above every low window. -/
theorem lt_smear_of_anyHigh {u v : List ℕ} (hlen : u.length = v.length)
    (hu : anyHigh u = false) (hv : anyHigh v = true) : u < smear v := by
  cases v with
  | nil => simp [anyHigh] at hv
  | cons c t =>
    cases u with
    | nil => simp at hlen
    | cons b s =>
      rw [anyHigh_cons, Bool.or_eq_false_iff, decide_eq_false_iff_not] at hu
      rw [smear, List.cons_lt_cons_iff]
      left
      split
      · omega
      · next h =>
        rw [anyHigh_cons, Bool.or_eq_true, decide_eq_true_iff] at hv
        have := hv.resolve_right h
        omega

/-- Behind its last high byte a window is above every low window. -/
theorem drop_lastHigh_lt {u v : List ℕ} (hlen : u.length = v.length)
    (hu : anyHigh u = false) (hv : anyHigh v = true) :
    u.drop (lastHigh v) < v.drop (lastHigh v) := by
  induction v generalizing u with
  | nil => simp [anyHigh] at hv
  | cons c t ih =>
    cases u with
    | nil => simp at hlen
    | cons b s =>
      rw [anyHigh_cons, Bool.or_eq_false_iff, decide_eq_false_iff_not] at hu
      have hlen' : s.length = t.length := by simpa using hlen
      cases ht : anyHigh t with
      | true => simpa [lastHigh, ht] using ih hlen' hu.2 ht
      | false =>
        -- the first byte is the high one
        rw [anyHigh_cons, ht, Bool.or_false, decide_eq_true_iff] at hv
        simp only [lastHigh, ht, Bool.false_eq_true, if_false, List.drop_zero,
          List.cons_lt_cons_iff]
        exact Or.inl (by omega)

/-- Smeared windows are ordered as the bytes from the last high byte on. -/
theorem smear_lt_iff {u v : List ℕ} (hlen : u.length = v.length) (hu : Digits 256 u)
    (hv : Digits 256 v) :
    smear u < smear v ↔ u.drop (lastHighOf u v) < v.drop (lastHighOf u v) := by
  induction u generalizing v with
  | nil =>
    cases v with
    | nil => simp [smear]
    | cons c t => simp at hlen
  | cons b s ih =>
    cases v with
    | nil => simp at hlen
    | cons c t =>
      have hlen' : s.length = t.length := by simpa using hlen
      have hb := hu.head
      have hc := hv.head
      cases hs : anyHigh s <;> cases ht : anyHigh t
      · simp [smear, hs, ht, smear_of_not_anyHigh hs, smear_of_not_anyHigh ht, lastHighOf,
          lastHigh]
      · -- only the right window has a high byte behind its first one
        have hlt := lt_smear_of_anyHigh hlen' hs ht
        have hdrop : lastHighOf (b :: s) (c :: t) = lastHigh t + 1 := by
          simp [lastHighOf, lastHigh, hs, ht]
        rw [hdrop, List.drop_succ_cons, List.drop_succ_cons]
        refine iff_of_true ?_ (drop_lastHigh_lt hlen' hs ht)
        rw [smear, smear, hs, ht, smear_of_not_anyHigh hs, List.cons_lt_cons_iff]
        simp only [Bool.false_eq_true, if_false, if_true]
        rcases Nat.lt_or_ge b 255 with h | h
        · exact Or.inl h
        · exact Or.inr ⟨by omega, hlt⟩
      · -- only the left window has one
        have hlt := lt_smear_of_anyHigh hlen'.symm ht hs
        have hdrop : lastHighOf (b :: s) (c :: t) = lastHigh s + 1 := by
          simp [lastHighOf, lastHigh, hs, ht]
        rw [hdrop, List.drop_succ_cons, List.drop_succ_cons]
        refine iff_of_false ?_ (lt_asymm (drop_lastHigh_lt hlen'.symm ht hs))
        rw [smear, smear, hs, ht, smear_of_not_anyHigh ht, List.cons_lt_cons_iff]
        simp only [Bool.false_eq_true, if_false, if_true]
        rintro (h | ⟨-, h⟩)
        · omega
        · exact lt_asymm h hlt
      · have hdrop : lastHighOf (b :: s) (c :: t) = lastHighOf s t + 1 := by
          simp only [lastHighOf, lastHigh, hs, ht, if_true]
          omega
        rw [hdrop, List.drop_succ_cons, List.drop_succ_cons, smear, smear, hs, ht,
          List.cons_lt_cons_iff]
        simp only [if_true, lt_irrefl, false_or, true_and, ih hlen' hu.tail hv.tail]

theorem smear_eq_iff {u v : List ℕ} (hlen : u.length = v.length) (hu : Digits 256 u)
    (hv : Digits 256 v) :
    smear u = smear v ↔ u.drop (lastHighOf u v) = v.drop (lastHighOf u v) := by
  have huv := smear_lt_iff hlen hu hv
  have hvu := smear_lt_iff hlen.symm hv hu
  rw [lastHighOf_comm v u] at hvu
  rw [le_antisymm_iff, le_antisymm_iff, ← not_lt, ← not_lt, ← not_lt, ← not_lt, huv, hvu]

theorem lastHigh_le (w : List ℕ) : lastHigh w ≤ w.length := by
  induction w with
  | nil => exact le_refl _
  | cons b t ih =>
    rw [lastHigh, List.length_cons]
    split <;> omega

/-- Two windows of one length are ordered by their bytes at `keyMismatch`. -/
theorem drop_lt_iff {u v : List ℕ} (hlen : u.length = v.length) :
    u.drop (lastHighOf u v) < v.drop (lastHighOf u v) ↔
      u.getD (keyMismatch u v) 0 < v.getD (keyMismatch u v) 0 := by
  have hq : lastHighOf u v + lcpLen (u.drop (lastHighOf u v)) (v.drop (lastHighOf u v)) =
      keyMismatch u v := rfl
  rw [lt_iff_lcpLen]
  simp only [List.getElem?_drop, List.getD_eq_getElem?_getD, hq]
  rcases Nat.lt_or_ge (keyMismatch u v) u.length with hlt | hge
  · rw [List.getElem?_eq_getElem hlt, List.getElem?_eq_getElem (hlen ▸ hlt)]
    simp
  · rw [List.getElem?_eq_none hge, List.getElem?_eq_none (hlen ▸ hge)]
    simp

/-- Windows that differ have different bytes at their first difference. -/
theorem getD_lcpLen_ne {u v : List ℕ} (hlen : u.length = v.length)
    (hlt : lcpLen u v < u.length) : u.getD (lcpLen u v) 0 ≠ v.getD (lcpLen u v) 0 := by
  obtain ⟨-, -, -, hne⟩ := (lcpLen_eq_iff u v _).mp rfl
  rw [List.getD_eq_getElem?_getD, List.getD_eq_getElem?_getD]
  rw [List.getElem?_eq_getElem hlt, List.getElem?_eq_getElem (hlen ▸ hlt)] at hne ⊢
  rw [Ne, Option.some_inj] at hne
  exact hne.resolve_left (by omega) |>.resolve_left (by omega)

theorem keyMismatch_getD_ne {u v : List ℕ} (hlen : u.length = v.length)
    (hlt : keyMismatch u v < u.length) :
    u.getD (keyMismatch u v) 0 ≠ v.getD (keyMismatch u v) 0 := by
  have h := getD_lcpLen_ne (u := u.drop (lastHighOf u v)) (v := v.drop (lastHighOf u v))
    (by simp [hlen]) (by rw [keyMismatch] at hlt; rw [List.length_drop]; omega)
  simpa [List.getD_eq_getElem?_getD, List.getElem?_drop, keyMismatch] using h

/-- A first difference that no later high byte hides is where the keys differ. -/
theorem keyMismatch_of_le {u v : List ℕ} (h : lastHighOf u v ≤ lcpLen u v) :
    keyMismatch u v = lcpLen u v := by
  obtain ⟨hu, -, htake⟩ := (le_lcpLen_iff u v _).mp h
  exact (lcpLen_of_take_eq hu htake).symm

theorem drop_eq_iff {u v : List ℕ} (hlen : u.length = v.length) :
    u.drop (lastHighOf u v) = v.drop (lastHighOf u v) ↔ u.length ≤ keyMismatch u v := by
  have hu : lastHighOf u v ≤ u.length := by
    have := lastHigh_le u
    have := lastHigh_le v
    rw [lastHighOf]
    omega
  constructor
  · intro heq
    rw [keyMismatch, ← heq, lcpLen_self, List.length_drop]
    omega
  · intro hle
    have h := (le_lcpLen_iff (u.drop (lastHighOf u v)) (v.drop (lastHighOf u v))
      (u.length - lastHighOf u v)).mp (by rw [keyMismatch] at hle; omega)
    have htake := h.2.2
    rwa [List.take_of_length_le (by simp), List.take_of_length_le (by simp [hlen])] at htake

/-! ## Windows of strings without zero characters -/

theorem window_eq_iff {x y : List CharType} (hx : ∀ c ∈ x, c ≠ 0) (hy : ∀ c ∈ y, c ≠ 0)
    (k : ℕ) : window k x = window k y ↔ x.take k = y.take k := by
  have hne : ∀ c : CharType, c ≠ 0 → c.toNat ≠ 0 := fun c hc h =>
    hc (BitVec.eq_of_toNat_eq (by simpa using h))
  induction k generalizing x y with
  | zero => simp [window]
  | succ k ih =>
    cases x with
    | nil =>
      cases y with
      | nil => simp
      | cons d y => simp [window, (hne d (hy d (List.mem_cons_self ..))).symm]
    | cons c x =>
      cases y with
      | nil => simp [window, hne c (hx c (List.mem_cons_self ..))]
      | cons d y =>
        simp [window, BitVec.toNat_inj,
          ih (fun c h => hx c (List.mem_cons_of_mem _ h))
            (fun c h => hy c (List.mem_cons_of_mem _ h))]

/-- Windows that differ do so where the strings do. -/
theorem lcpLen_window {x y : List CharType} (hx : ∀ c ∈ x, c ≠ 0) (hy : ∀ c ∈ y, c ≠ 0)
    {k : ℕ} (h : window k x ≠ window k y) :
    lcpLen (window k x) (window k y) = lcpLen x y ∧ lcpLen x y < k := by
  have hne : ∀ c : CharType, c ≠ 0 → c.toNat ≠ 0 := fun c hc h =>
    hc (BitVec.eq_of_toNat_eq (by simpa using h))
  induction k generalizing x y with
  | zero => exact absurd rfl h
  | succ k ih =>
    cases x with
    | nil =>
      cases y with
      | nil => exact absurd rfl h
      | cons b ys =>
        have := hne b (hy b (List.mem_cons_self ..))
        simp [window, lcpLen_cons, this.symm]
    | cons a xs =>
      cases y with
      | nil =>
        have := hne a (hx a (List.mem_cons_self ..))
        simp [window, lcpLen_cons, this]
      | cons b ys =>
        simp only [window, lcpLen_cons, BitVec.toNat_inj]
        by_cases hab : a = b
        · subst hab
          have hrest : window k xs ≠ window k ys := fun heq => h (by simp [window, heq])
          obtain ⟨h₁, h₂⟩ := ih (fun c hc => hx c (List.mem_cons_of_mem _ hc))
            (fun c hc => hy c (List.mem_cons_of_mem _ hc)) hrest
          simp only [if_true]
          omega
        · simp [hab]

/-- The smaller of two windows is smaller at the first position where the strings
differ, and the other string has a character there. -/
theorem window_lt {x y : List CharType} (hx : ∀ c ∈ x, c ≠ 0) (hy : ∀ c ∈ y, c ≠ 0)
    {k : ℕ} (h : window k x < window k y) :
    ∃ c, y[lcpLen x y]? = some c ∧ ∀ d, x[lcpLen x y]? = some d → d.toNat < c.toNat := by
  induction k generalizing x y with
  | zero => simp [window] at h
  | succ k ih =>
    cases y with
    | nil =>
      exfalso
      cases x with
      | nil => exact lt_irrefl _ h
      | cons c x =>
        rw [window, window, List.cons_lt_cons_iff] at h
        have hc : c ≠ 0 := hx c (List.mem_cons_self ..)
        rcases h with h | ⟨h, -⟩
        · omega
        · exact hc (BitVec.eq_of_toNat_eq (by simpa using h))
    | cons d y =>
      cases x with
      | nil => exact ⟨d, by simp, by simp⟩
      | cons c x =>
        rw [window, window, List.cons_lt_cons_iff, BitVec.toNat_inj] at h
        rcases h with h | ⟨rfl, h⟩
        · have hcd : c ≠ d := fun he => by simp [he] at h
          exact ⟨d, by simp [lcpLen_cons, hcd], by simpa [lcpLen_cons, hcd] using h⟩
        · simpa [lcpLen_cons] using ih (fun c h => hx c (List.mem_cons_of_mem _ h))
            (fun c h => hy c (List.mem_cons_of_mem _ h)) h

/-! ## Key order and comparison order -/

section KeyOrder

variable {S : Type} (ss : StringSet S)

/-- The iterators at the first position from `depth` on where `is_equal` fails. -/
def mismatch (a b : S) (depth : ℕ) : ℕ × ℕ :=
  ss.scanEqual a b (ss.length a) (ss.getChars a depth) (ss.getChars b depth)

/-- `is_less` at the first position from `depth` on where `is_equal` fails. -/
def lessAtMismatch (a b : S) (depth : ℕ) : Bool :=
  ss.isLess a (mismatch ss a b depth).1 b (mismatch ss a b depth).2

/-- The next eight characters of a string, padded with zeros. -/
def keyWindow (s : S) (depth : ℕ) : List ℕ := window 8 ((ss.chars s).drop depth)

/-- A smaller key implies a smaller string, and equal keys imply that the next eight
characters are the same (or both strings end among them). -/
def KeyOrderAgrees (a b : S) (depth : ℕ) : Prop :=
  (getUint64 ss a depth < getUint64 ss b depth → lessAtMismatch ss a b depth = true) ∧
  (getUint64 ss a depth = getUint64 ss b depth →
    ((ss.chars a).drop depth).take 8 = ((ss.chars b).drop depth).take 8)

variable {ss}

/-- With an unsigned `Char` the string whose window is smaller is the smaller one. -/
theorem lessAtMismatch_of_window_lt (hset : StringSetOf ss) (hsg : ss.signedChar = false)
    {a b : S} {depth : ℕ} (hza : ∀ c ∈ ss.chars a, c ≠ 0) (hzb : ∀ c ∈ ss.chars b, c ≠ 0)
    (hda : depth ≤ ss.length a) (hdb : depth ≤ ss.length b)
    (h : keyWindow ss a depth < keyWindow ss b depth) : lessAtMismatch ss a b depth = true := by
  have hlaw := hset.lawful
  have hscan := StringSet.scanEqual_eq hlaw a b (ss.length a) depth depth hda hdb (Nat.sub_le _ _)
  obtain ⟨c, hc, hless⟩ := window_lt (fun c hc => hza c (List.mem_of_mem_drop hc))
    (fun c hc => hzb c (List.mem_of_mem_drop hc)) h
  set p := lcpLen ((ss.chars a).drop depth) ((ss.chars b).drop depth)
  have hpa : depth + p ≤ ss.length a := by
    have := lcpLen_le_left ((ss.chars a).drop depth) ((ss.chars b).drop depth)
    rw [List.length_drop, ss.length_chars] at this
    omega
  rw [List.getElem?_drop] at hc
  have hpb : depth + p < ss.length b := by
    by_contra hge
    rw [List.getElem?_eq_none (by simpa using hge)] at hc
    exact absurd hc (by simp)
  rw [ss.getElem?_chars b hpb, Option.some_inj] at hc
  rw [lessAtMismatch, mismatch, hscan]
  -- the character of `a` at the mismatch, when `a` has not ended there
  have hcmp : depth + p < ss.length a →
      (ss.deref (ss.getChars a (depth + p))).toNat < c.toNat := by
    intro hlt
    apply hless
    rw [List.getElem?_drop, ss.getElem?_chars a hlt]
  rcases hset.generic_or_base with ⟨sg, mem, rfl, rfl⟩ | hbase
  · change sg = false at hsg
    subst hsg
    change decide (charVal false (mem (a.ptr + (depth + p))) <
      charVal false (mem (b.ptr + (depth + p)))) = true
    rw [decide_eq_true_iff, charVal_lt_iff_unsigned]
    change mem (b.ptr + (depth + p)) = c at hc
    change depth + p < a.len → (mem (a.ptr + (depth + p))).toNat < c.toNat at hcmp
    change depth + p ≤ a.len at hpa
    rw [hc]
    rcases Nat.lt_or_ge (depth + p) a.len with hlt | hge
    · exact hcmp hlt
    · rw [show depth + p = a.len by omega, a.nul]
      have : c.toNat ≠ 0 := fun h0 => b.notNul (depth + p) hpb
        (by rw [hc]; exact BitVec.eq_of_toNat_eq (by simpa using h0))
      simpa using Nat.pos_of_ne_zero this
  · rw [hbase.isLess_eq, StringSetBase.isLess, hsg]
    have hendb : ss.isEnd b (ss.getChars b (depth + p)) = false := by
      rw [← Bool.not_eq_true, hlaw.isEnd_iff b _ hpb.le]
      omega
    rcases Nat.lt_or_ge (depth + p) (ss.length a) with hlt | hge
    · have henda : ss.isEnd a (ss.getChars a (depth + p)) = false := by
        rw [← Bool.not_eq_true, hlaw.isEnd_iff a _ hpa]
        omega
      simp only [henda, hendb, Bool.false_or, Bool.not_false, Bool.true_and,
        decide_eq_true_eq, charVal_lt_iff_unsigned, hc]
      exact hcmp hlt
    · have henda : ss.isEnd a (ss.getChars a (depth + p)) = true := by
        rw [hlaw.isEnd_iff a _ hpa]
        omega
      simp [henda]

/-- The character of `a` at the first position from `depth` on where the strings differ is
below that of `b`.  Where one string has ended, the sets derived from `StringSetBase` take
its end for smaller than every character, the others read its terminator. -/
def CharBelow (ss : StringSet S) (a b : S) (depth : ℕ) : Prop :=
  let p := depth + lcpLen ((ss.chars a).drop depth) ((ss.chars b).drop depth)
  match (ss.chars a)[p]?, (ss.chars b)[p]? with
  | some c, some d => charVal ss.signedChar c < charVal ss.signedChar d
  | none, some d => ss.BaseDerived ∨ 0 < charVal ss.signedChar d
  | some c, none => ¬ ss.BaseDerived ∧ charVal ss.signedChar c < 0
  | none, none => False

private theorem charVal_zero (sg : Bool) : charVal sg 0 = 0 := by
  cases sg <;> rfl

/-- On a set derived from `StringSetBase` a comparison looks at the characters, or at which
string has ended. -/
theorem StringSet.BaseDerived.isLess_iff (h : ss.BaseDerived) {a b : S} {p : ℕ}
    (ha : p ≤ ss.length a) (hb : p ≤ ss.length b) :
    ss.isLess a (ss.getChars a p) b (ss.getChars b p) = true ↔
      match (ss.chars a)[p]?, (ss.chars b)[p]? with
      | some c, some d => charVal ss.signedChar c < charVal ss.signedChar d
      | none, _ => True
      | some _, none => False := by
  have hend : ∀ s, p ≤ ss.length s →
      (ss.isEnd s (ss.getChars s p) = true ↔ p = ss.length s) :=
    fun s hs => h.lawful.isEnd_iff s p hs
  rw [h.isLess_eq, StringSetBase.isLess]
  rcases Nat.eq_or_lt_of_le ha with hpa | hpa
  · rw [(hend a ha).mpr hpa, List.getElem?_eq_none (by simp [hpa])]
    simp
  · have hna : ss.isEnd a (ss.getChars a p) = false := by
      rw [← Bool.not_eq_true, hend a ha]
      omega
    rw [ss.getElem?_chars a hpa, hna]
    rcases Nat.eq_or_lt_of_le hb with hpb | hpb
    · rw [(hend b hb).mpr hpb, List.getElem?_eq_none (by simp [hpb])]
      simp
    · have hnb : ss.isEnd b (ss.getChars b p) = false := by
        rw [← Bool.not_eq_true, hend b hb]
        omega
      rw [ss.getElem?_chars b hpb, hnb]
      simp

/-- The character at a place of a NUL-terminated string, the terminator included. -/
theorem GenericCharStringSet.deref_eq {sg : Bool} {mem : ℕ → CharType} {s : CString mem} {p : ℕ}
    (hs : p ≤ s.len) :
    mem (s.ptr + p) = ((GenericCharStringSet sg mem).chars s)[p]?.getD 0 := by
  rcases Nat.eq_or_lt_of_le hs with hlen | hlt
  · rw [List.getElem?_eq_none (by rw [StringSet.length_chars]; exact hlen.ge), hlen, s.nul]
    rfl
  · rw [StringSet.getElem?_chars _ s hlt]
    rfl

/-- On NUL-terminated strings a comparison looks at the characters, the terminator
included. -/
theorem GenericCharStringSet.isLess_iff {sg : Bool} {mem : ℕ → CharType} {a b : CString mem}
    {p : ℕ} (ha : p ≤ a.len) (hb : p ≤ b.len) :
    (GenericCharStringSet sg mem).isLess a (a.ptr + p) b (b.ptr + p) = true ↔
      charVal sg (((GenericCharStringSet sg mem).chars a)[p]?.getD 0) <
        charVal sg (((GenericCharStringSet sg mem).chars b)[p]?.getD 0) := by
  rw [← deref_eq ha, ← deref_eq hb]
  exact decide_eq_true_iff

/-- The comparison at the first mismatch of two strings that differ behind `depth`. -/
theorem lessAtMismatch_iff (hset : StringSetOf ss) {a b : S} {depth : ℕ}
    (hda : depth ≤ ss.length a) (hdb : depth ≤ ss.length b)
    (hne : (ss.chars a).drop depth ≠ (ss.chars b).drop depth) :
    lessAtMismatch ss a b depth = true ↔ CharBelow ss a b depth := by
  have hscan := StringSet.scanEqual_eq hset.lawful a b (ss.length a) depth depth hda hdb
    (Nat.sub_le _ _)
  rw [lessAtMismatch, mismatch, hscan, CharBelow]
  have hla := lcpLen_le_left ((ss.chars a).drop depth) ((ss.chars b).drop depth)
  have hlb := lcpLen_le_right ((ss.chars a).drop depth) ((ss.chars b).drop depth)
  -- not both strings end at the mismatch
  have hboth : ¬ ((ss.chars a)[depth + lcpLen ((ss.chars a).drop depth)
        ((ss.chars b).drop depth)]? = none ∧
      (ss.chars b)[depth + lcpLen ((ss.chars a).drop depth)
        ((ss.chars b).drop depth)]? = none) := by
    rintro ⟨h₁, h₂⟩
    rw [List.getElem?_eq_none_iff] at h₁ h₂
    rw [List.length_drop] at hla hlb
    refine hne (eq_of_lcpLen_eq ?_ ?_) <;> rw [List.length_drop] <;> omega
  rw [List.length_drop, ss.length_chars] at hla hlb
  set p := depth + lcpLen ((ss.chars a).drop depth) ((ss.chars b).drop depth)
  have hpa : p ≤ ss.length a := by omega
  have hpb : p ≤ ss.length b := by omega
  by_cases hbase : ss.BaseDerived
  · rw [hbase.isLess_iff hpa hpb]
    cases hca : (ss.chars a)[p]? <;> cases hcb : (ss.chars b)[p]? <;>
      simp_all
  · rcases hset.generic_or_base with ⟨sg, mem, rfl, rfl⟩ | h
    · refine (GenericCharStringSet.isLess_iff hpa hpb).trans ?_
      have hsg : (GenericCharStringSet sg mem).signedChar = sg := rfl
      simp only [hsg, hbase, false_or, not_false_iff, true_and]
      rcases hca : ((GenericCharStringSet sg mem).chars a)[p]? with - | c <;>
        rcases hcb : ((GenericCharStringSet sg mem).chars b)[p]? with - | d
      · exact absurd ⟨hca, hcb⟩ hboth
      · simp only [Option.getD_none, Option.getD_some, charVal_zero]
      · simp only [Option.getD_none, Option.getD_some, charVal_zero]
      · simp only [Option.getD_some]
    · exact absurd h hbase

/-- The two strings differ among their next eight characters, at the last byte `≥ 0x80` or
behind it.  The keys then tell the bytes there apart, and the comparison ranks them as
signed characters: the byte of `b` is not the only one `≥ 0x80`, unless `a` has ended and an
end is smaller than every character. -/
def ComparedInOrder (ss : StringSet S) (a b : S) (depth : ℕ) : Prop :=
  let u := keyWindow ss a depth
  let v := keyWindow ss b depth
  let p := lcpLen u v
  lastHighOf u v ≤ p ∧
    (128 ≤ v.getD p 0 → 128 ≤ u.getD p 0 ∨ ss.BaseDerived ∧ ss.length a = depth + p)

/-- The two strings differ in front of a byte `≥ 0x80` among their next eight characters, so
that sign extension hides the difference from the keys.  They differ again from the last such
byte on, and there `b` has the smaller byte, or `a` has the smaller character at the first
difference too. -/
def ExtendedInOrder (ss : StringSet S) (a b : S) (depth : ℕ) : Prop :=
  let u := keyWindow ss a depth
  let v := keyWindow ss b depth
  let q := keyMismatch u v
  lcpLen u v < lastHighOf u v ∧ q < 8 ∧ (v.getD q 0 < u.getD q 0 ∨ CharBelow ss a b depth)

/-- The byte of a window at a place among the next eight. -/
theorem keyWindow_getD (s : S) (depth : ℕ) {i : ℕ} (hi : i < 8) :
    (keyWindow ss s depth).getD i 0 = ((ss.chars s)[depth + i]?).elim 0 BitVec.toNat := by
  rw [List.getD_eq_getElem?_getD, keyWindow, window_getElem? _ hi, List.getElem?_drop]
  rfl

private theorem charVal_true_lt_iff (c d : CharType) (h : c.toNat < d.toNat) :
    charVal true c < charVal true d ↔ (128 ≤ d.toNat → 128 ≤ c.toNat) := by
  have hc := c.isLt
  have hd := d.isLt
  simp only [charVal, BitVec.toInt_eq_toNat_cond, if_true]
  split <;> split <;> omega

/-- How the bytes at the first difference rank as signed characters. -/
theorem charBelow_iff (hsg : ss.signedChar = true) {a b : S} {depth p : ℕ} (hp : p < 8)
    (hlcp : lcpLen ((ss.chars a).drop depth) ((ss.chars b).drop depth) = p)
    (hzb : ∀ c ∈ ss.chars b, c ≠ 0) (hda : depth ≤ ss.length a)
    (hlt : (keyWindow ss a depth).getD p 0 < (keyWindow ss b depth).getD p 0) :
    CharBelow ss a b depth ↔ (128 ≤ (keyWindow ss b depth).getD p 0 →
      128 ≤ (keyWindow ss a depth).getD p 0 ∨ ss.BaseDerived ∧ ss.length a = depth + p) := by
  have hpa : depth + p ≤ ss.length a := by
    have := lcpLen_le_left ((ss.chars a).drop depth) ((ss.chars b).drop depth)
    rw [hlcp, List.length_drop, ss.length_chars] at this
    omega
  rw [CharBelow, hlcp, hsg]
  rw [keyWindow_getD a depth hp, keyWindow_getD b depth hp] at *
  cases hcb : (ss.chars b)[depth + p]? with
  | none => simp [hcb] at hlt
  | some d =>
    cases hca : (ss.chars a)[depth + p]? with
    | some c =>
      -- both strings go on: the comparison is that of signed characters
      have hlen : ss.length a ≠ depth + p := by
        have := (List.getElem?_eq_some_iff.mp hca).1
        rw [ss.length_chars] at this
        omega
      simp only [hca, hcb, Option.elim_some] at hlt ⊢
      simp only [hlen, and_false, or_false]
      exact charVal_true_lt_iff c d hlt
    | none =>
      -- the left string has ended
      have hlen : ss.length a = depth + p := by
        rw [List.getElem?_eq_none_iff, ss.length_chars] at hca
        omega
      have hd : d.toNat ≠ 0 := fun h0 => hzb d (List.mem_of_getElem? hcb)
        (BitVec.eq_of_toNat_eq (by simpa using h0))
      have hpos : 0 < charVal true d ↔ d.toNat < 128 := by
        have := d.isLt
        simp only [charVal, BitVec.toInt_eq_toNat_cond, if_true]
        split <;> omega
      simp only [Option.elim_some, Option.elim_none, hpos, hlen, and_true]
      by_cases hbase : ss.BaseDerived
      · simp [hbase]
      · simp [hbase]

/-- Keys of strings without zero characters agree with the comparisons exactly when `Char`
is unsigned, or the next eight characters are the same, or the difference stands behind every
byte `≥ 0x80` and the comparison of signed characters does no harm, or sign extension hides
it and leaves another one that goes the same way. -/
theorem keyOrderAgrees_iff (hset : StringSetOf ss) (a b : S) (depth : ℕ)
    (hza : ∀ c ∈ ss.chars a, c ≠ 0) (hzb : ∀ c ∈ ss.chars b, c ≠ 0)
    (hda : depth ≤ ss.length a) (hdb : depth ≤ ss.length b) :
    KeyOrderAgrees ss a b depth ↔
      ss.signedChar = false ∨ keyWindow ss a depth = keyWindow ss b depth ∨
      ComparedInOrder ss a b depth ∨ ExtendedInOrder ss a b depth := by
  have hka := isKey_getUint64 hset.lawful a depth hda
  have hkb := isKey_getUint64 hset.lawful b depth hdb
  have hxa : ∀ c ∈ (ss.chars a).drop depth, c ≠ 0 := fun c hc => hza c (List.mem_of_mem_drop hc)
  have hxb : ∀ c ∈ (ss.chars b).drop depth, c ≠ 0 := fun c hc => hzb c (List.mem_of_mem_drop hc)
  have htake : keyWindow ss a depth = keyWindow ss b depth ↔
      ((ss.chars a).drop depth).take 8 = ((ss.chars b).drop depth).take 8 :=
    window_eq_iff hxa hxb 8
  rw [KeyOrderAgrees, hka.lt_iff hkb, hka.eq_iff hkb, ← htake]
  change (keyBytes ss.signedChar (keyWindow ss a depth) <
      keyBytes ss.signedChar (keyWindow ss b depth) → _) ∧
    (keyBytes ss.signedChar (keyWindow ss a depth) =
      keyBytes ss.signedChar (keyWindow ss b depth) → _) ↔ _
  cases hsg : ss.signedChar with
  | false =>
    refine iff_of_true ⟨fun h => ?_, fun h => h⟩ (Or.inl rfl)
    exact lessAtMismatch_of_window_lt hset hsg hza hzb hda hdb h
  | true =>
    have hlen : (keyWindow ss a depth).length = (keyWindow ss b depth).length := by
      simp [keyWindow]
    have hlen8 : (keyWindow ss a depth).length = 8 := length_window _ _
    have hlt := smear_lt_iff hlen (digits_window _ _) (digits_window _ _)
    have heq := smear_eq_iff hlen (digits_window _ _) (digits_window _ _)
    simp only [keyBytes, if_true, Bool.true_eq_false, false_or, hlt, heq, drop_lt_iff hlen,
      drop_eq_iff hlen, hlen8]
    by_cases hsame : keyWindow ss a depth = keyWindow ss b depth
    · simp [hsame]
    -- the strings differ at `p`, and the windows do
    have hne : (ss.chars a).drop depth ≠ (ss.chars b).drop depth := fun h =>
      hsame (by rw [keyWindow, keyWindow, h])
    have hless := lessAtMismatch_iff hset hda hdb hne
    obtain ⟨hlcp, hlt8⟩ := lcpLen_window hxa hxb hsame
    have hp8 : lcpLen (keyWindow ss a depth) (keyWindow ss b depth) < 8 := hlcp.trans_lt hlt8
    have hpne := getD_lcpLen_ne hlen (hlen8 ▸ hp8)
    simp only [hsame, false_or, imp_false, not_le, hless, ComparedInOrder, ExtendedInOrder]
    rcases Nat.lt_or_ge (lcpLen (keyWindow ss a depth) (keyWindow ss b depth))
      (lastHighOf (keyWindow ss a depth) (keyWindow ss b depth)) with hhid | hsee
    · -- sign extension hides the first difference
      simp only [hhid, Nat.not_le.mpr hhid, false_and, false_or, true_and]
      rw [and_comm]
      refine and_congr_right fun hq => ?_
      rcases Nat.lt_or_gt_of_ne (keyMismatch_getD_ne hlen (hlen8 ▸ hq)) with h | h
      · simp only [h, h.not_gt, true_imp_iff, false_or]
      · simp only [h, h.not_gt, false_imp_iff, true_or]
    · -- the keys show the first difference
      simp only [hsee, Nat.not_lt.mpr hsee, false_and, or_false, true_and,
        keyMismatch_of_le hsee, hp8, and_true]
      rcases Nat.lt_or_gt_of_ne hpne with h | h
      · simp only [h, true_imp_iff]
        exact charBelow_iff hsg hp8 hlcp.symm hzb hda h
      · refine iff_of_true (fun hcon => absurd hcon h.not_gt) fun hv => Or.inl ?_
        exact hv.trans h.le

end KeyOrder

/-- The strings `"b"`, `"a\x80"` and `"b\x81"`, one behind the other. -/
private def memSigned : ℕ → CharType := fun i => [98, 97, 128, 98, 129].getD i 0

/-- With `char` strings the key of `"b"` is below that of `"a\x80"` through sign extension,
and the key of `"a"` below that of `"\x80"`, which the signed comparison ranks first. -/
theorem keyOrder_fails_signed :
    ¬ KeyOrderAgrees (VectorStringSet memSigned) ⟨0, 1⟩ ⟨1, 2⟩ 0 ∧
    ¬ KeyOrderAgrees (VectorStringSet memSigned) ⟨1, 1⟩ ⟨2, 1⟩ 0 := by
  have hext : getUint64 (VectorStringSet memSigned) ⟨0, 1⟩ 0 <
      getUint64 (VectorStringSet memSigned) ⟨1, 2⟩ 0 := by decide
  have hcmp : getUint64 (VectorStringSet memSigned) ⟨1, 1⟩ 0 <
      getUint64 (VectorStringSet memSigned) ⟨2, 1⟩ 0 := by decide
  exact ⟨fun h => absurd (h.1 hext) (by decide), fun h => absurd (h.1 hcmp) (by decide)⟩

/-- The criterion at `"a\x80"` and `"b\x81"`: sign extension hides the first characters, and
the second ones go the same way. -/
theorem keyOrderAgrees_hidden :
    KeyOrderAgrees (VectorStringSet memSigned) ⟨1, 2⟩ ⟨3, 2⟩ 0 := by
  refine (keyOrderAgrees_iff (StringSetOf.vectorStringSet memSigned) ⟨1, 2⟩ ⟨3, 2⟩ 0
    (by decide) (by decide) (by decide) (by decide)).mpr ?_
  have hbelow : charVal true 97 < charVal true 98 := by decide
  exact Or.inr (Or.inr (Or.inr ⟨by decide, by decide, Or.inr hbelow⟩))

/-! ## Zero low bytes -/

section ZeroByte

variable {S : Type} (ss : StringSet S)

/-- Equal keys with a zero low byte mean that the strings are the same and that their
common prefix ends where the key says. -/
def ZeroByteFinished (a b : S) (depth : ℕ) : Prop :=
  getUint64 ss a depth = getUint64 ss b depth → lowByte (getUint64 ss a depth) = 0 →
    ss.chars a = ss.chars b ∧
      lcpLen (ss.chars a) (ss.chars b) = depth + lcpKeyDepth (getUint64 ss a depth)

/-- The string ends behind `depth`, at most seven characters on, and its last character there
is not zero. -/
def EndsInWindow (s : S) (depth : ℕ) : Prop :=
  depth ≤ ss.length s ∧ ss.length s < depth + 8 ∧
    (depth < ss.length s → (ss.chars s)[ss.length s - 1]? ≠ some 0)

/-- The next eight characters agree in front of the last one `≥ 0x80`, where sign extension
would hide a difference from the keys. -/
def SameInFront (a b : S) (depth : ℕ) : Prop :=
  let u := keyWindow ss a depth
  let v := keyWindow ss b depth
  u.take (lastHighOf u v) = v.take (lastHighOf u v)

variable {ss}

/-- The zero bytes at the end of a window stay. -/
theorem smear_getElem?_zero {w : List ℕ} {m : ℕ} (h : ∀ i, m ≤ i → i < w.length → w[i]? = some 0)
    {i : ℕ} (hmi : m ≤ i) (hi : i < w.length) : (smear w)[i]? = some 0 := by
  induction w generalizing m i with
  | nil => simp at hi
  | cons b t ih =>
    cases i with
    | zero =>
      have hm : m = 0 := by omega
      subst hm
      have hb : b = 0 := by simpa using h 0 (le_refl _) (by simp)
      have ht : anyHigh t = false := by
        rw [anyHigh, List.any_eq_false]
        intro c hc
        obtain ⟨j, hj, rfl⟩ := List.getElem_of_mem hc
        have := h (j + 1) (by omega) (by simpa using hj)
        rw [List.getElem?_cons_succ, List.getElem?_eq_getElem hj, Option.some_inj] at this
        simp [this]
      simp [smear, ht, hb]
    | succ i =>
      rw [smear, List.getElem?_cons_succ]
      refine ih (m := m - 1) (fun j hj hlt => ?_) (by omega) (by simpa using hi)
      have := h (j + 1) (by omega) (by simpa using hlt)
      rwa [List.getElem?_cons_succ] at this

theorem smear_getElem?_ne_zero {w : List ℕ} {i : ℕ} (hi : i < w.length) (h : w[i]? ≠ some 0) :
    (smear w)[i]? ≠ some 0 := by
  induction w generalizing i with
  | nil => simp at hi
  | cons b t ih =>
    cases i with
    | zero =>
      have hb : b ≠ 0 := by simpa using h
      rw [smear, List.getElem?_cons_zero, ne_eq, Option.some_inj]
      split
      · omega
      · exact hb
    | succ i =>
      rw [smear, List.getElem?_cons_succ]
      exact ih (by simpa using hi) (by simpa using h)

theorem keyBytes_getElem?_zero (sg : Bool) {w : List ℕ} {m : ℕ}
    (h : ∀ i, m ≤ i → i < w.length → w[i]? = some 0) {i : ℕ} (hmi : m ≤ i)
    (hi : i < w.length) : (keyBytes sg w)[i]? = some 0 := by
  cases sg with
  | false => exact h i hmi hi
  | true => exact smear_getElem?_zero h hmi hi

theorem keyBytes_getElem?_ne_zero (sg : Bool) {w : List ℕ} {i : ℕ} (hi : i < w.length)
    (h : w[i]? ≠ some 0) : (keyBytes sg w)[i]? ≠ some 0 := by
  cases sg with
  | false => exact h
  | true => exact smear_getElem?_ne_zero hi h

/-- The bytes of a key are those of the window, also for a string that has ended before. -/
theorem isKey_keyWindow (h : ss.BaseDerived) (s : S) (depth : ℕ) :
    IsKey (getUint64 ss s depth) (keyBytes ss.signedChar (keyWindow ss s depth)) := by
  rcases Nat.lt_or_ge depth (ss.length s) with hlt | hge
  · exact isKey_getUint64 h.lawful s depth hlt.le
  · rw [getUint64_of_length_le h s depth hge, keyWindow, ss.drop_chars_nil s hge]
    exact ⟨by simp, digits_keyBytes _ (digits_window _ _),
      by rw [(window_nil_value ss.signedChar 8).2]; rfl⟩

/-- Equal keys with the same characters in front of the last byte `≥ 0x80` come from equal
windows. -/
theorem keyWindow_eq_of_sameInFront (h : ss.BaseDerived) {a b : S} {depth : ℕ}
    (hk : getUint64 ss a depth = getUint64 ss b depth)
    (hfront : ss.signedChar = true → SameInFront ss a b depth) :
    keyWindow ss a depth = keyWindow ss b depth := by
  rw [(isKey_keyWindow h a depth).eq_iff (isKey_keyWindow h b depth)] at hk
  cases hsg : ss.signedChar with
  | false => simpa [keyBytes, hsg] using hk
  | true =>
    have hlen : (keyWindow ss a depth).length = (keyWindow ss b depth).length := by
      simp [keyWindow]
    simp only [keyBytes, hsg, if_true] at hk
    rw [smear_eq_iff hlen (digits_window _ _) (digits_window _ _)] at hk
    -- the windows agree in front of the last high byte and from it on
    have hf : (keyWindow ss a depth).take _ = (keyWindow ss b depth).take _ := hfront hsg
    rw [← List.take_append_drop (lastHighOf (keyWindow ss a depth) (keyWindow ss b depth))
      (keyWindow ss a depth), hf, hk, List.take_append_drop]

/-- The window of a string that ends in it tells the rest of the string. -/
theorem drop_chars_of_endsInWindow {a b : S} {depth : ℕ} (ha : EndsInWindow ss a depth)
    (hb : EndsInWindow ss b depth) (hw : keyWindow ss a depth = keyWindow ss b depth) :
    (ss.chars a).drop depth = (ss.chars b).drop depth := by
  have hbyte : ∀ s, ∀ i < 8, (keyWindow ss s depth)[i]? =
      some (((ss.chars s)[depth + i]?).elim 0 BitVec.toNat) := by
    intro s i hi
    rw [keyWindow, window_getElem? _ hi, List.getElem?_drop]
  -- a string that is longer than the other one would end with a zero character
  have hshort : ∀ s t, EndsInWindow ss s depth → EndsInWindow ss t depth →
      keyWindow ss s depth = keyWindow ss t depth → ss.length s ≤ ss.length t := by
    rintro s t ⟨hds, hs8, hlast⟩ ⟨hdt, ht8, -⟩ hst
    by_contra hlt
    have hbs := hbyte s (ss.length s - 1 - depth) (by omega)
    have hidx : depth + (ss.length s - 1 - depth) = ss.length s - 1 := by omega
    rw [hst, hbyte t _ (by omega), hidx,
      List.getElem?_eq_none (by rw [ss.length_chars]; omega)] at hbs
    have hlast' := hlast (by omega)
    rw [ss.getElem?_chars s (by omega)] at hbs hlast'
    simp only [Option.elim_none, Option.elim_some, Option.some_inj] at hbs
    exact hlast' (congrArg some (BitVec.eq_of_toNat_eq (by simpa using hbs.symm)))
  have hlen : ss.length a = ss.length b :=
    le_antisymm (hshort a b ha hb hw) (hshort b a hb ha hw.symm)
  apply List.ext_getElem?
  intro i
  rw [List.getElem?_drop, List.getElem?_drop]
  rcases Nat.lt_or_ge (depth + i) (ss.length a) with hi | hi
  · have h8 : i < 8 := by have := ha.2.1; omega
    have hba := hbyte a i h8
    rw [hw, hbyte b i h8, ss.getElem?_chars a hi, ss.getElem?_chars b (hlen ▸ hi)] at hba
    rw [ss.getElem?_chars a hi, ss.getElem?_chars b (hlen ▸ hi)]
    simp only [Option.elim_some, Option.some_inj] at hba
    exact congrArg some (BitVec.eq_of_toNat_eq hba.symm)
  · rw [List.getElem?_eq_none (by rw [ss.length_chars]; exact hi),
      List.getElem?_eq_none (by rw [ss.length_chars]; omega)]

/-- The key of a string that ends in its window tells the length. -/
theorem lcpKeyDepth_of_endsInWindow (h : ss.BaseDerived) {a : S} {depth : ℕ}
    (hend : EndsInWindow ss a depth) :
    lcpKeyDepth (getUint64 ss a depth) = ss.length a - depth := by
  obtain ⟨hd, hlt, hne⟩ := hend
  have hw : ∀ i, i < 8 → (keyWindow ss a depth)[i]? =
      some (((ss.chars a)[depth + i]?).elim 0 BitVec.toNat) := by
    intro i hi
    rw [keyWindow, window_getElem? _ hi, List.getElem?_drop]
  refine lcpKeyDepth_eq (isKey_getUint64 h.lawful a depth hd) (by omega) (fun i hi hi8 => ?_) ?_
  · refine keyBytes_getElem?_zero _ (m := ss.length a - depth) (fun j hj hj8 => ?_) hi
      (by simpa using hi8)
    rw [length_window] at hj8
    change (keyWindow ss a depth)[j]? = some 0
    rw [hw j hj8, List.getElem?_eq_none (by rw [ss.length_chars]; omega)]
    rfl
  · rcases Nat.eq_or_lt_of_le hd with heq | hlt'
    · left; omega
    · right
      refine keyBytes_getElem?_ne_zero _ (by simp; omega) ?_
      change (keyWindow ss a depth)[_]? ≠ some 0
      rw [hw _ (by omega), show depth + (ss.length a - depth - 1) = ss.length a - 1 by omega]
      have hlast := hne hlt'
      rw [ss.getElem?_chars a (by omega)] at hlast ⊢
      intro h0
      rw [Option.some_inj] at h0
      exact hlast (congrArg some (BitVec.eq_of_toNat_eq (by simpa using h0)))

theorem exists_last_nonzero (w : List ℕ) :
    ∃ m ≤ w.length, (∀ i, m ≤ i → i < w.length → w[i]? = some 0) ∧
      (m = 0 ∨ w[m - 1]? ≠ some 0) := by
  induction w using List.reverseRecOn with
  | nil => exact ⟨0, le_refl _, fun i _ h => absurd h (by simp), Or.inl rfl⟩
  | append_singleton w b ih =>
    by_cases hb : b = 0
    · obtain ⟨m, hm, hzero, hlast⟩ := ih
      refine ⟨m, by simp; omega, fun i hi hlt => ?_, ?_⟩
      · rcases Nat.lt_or_ge i w.length with h | h
        · rw [List.getElem?_append_left h]
          exact hzero i hi h
        · rw [List.getElem?_append_right h, show i - w.length = 0 by simp at hlt; omega, hb]
          rfl
      · rcases Nat.eq_zero_or_pos m with hm0 | hpos
        · exact Or.inl hm0
        · rw [List.getElem?_append_left (by omega)]
          exact hlast
    · refine ⟨w.length + 1, by simp, fun i hi hlt => ?_, Or.inr (by simpa using hb)⟩
      simp at hlt
      omega

/-- A string whose length is what the key tells ends inside the window. -/
theorem endsInWindow_of_lcpKeyDepth (h : ss.BaseDerived) {a : S} {depth : ℕ}
    (hlen : ss.length a = depth + lcpKeyDepth (getUint64 ss a depth))
    (h0 : lowByte (getUint64 ss a depth) = 0) : EndsInWindow ss a depth := by
  have hd : depth ≤ ss.length a := by omega
  have hkey := isKey_getUint64 h.lawful a depth hd
  obtain ⟨m, hm, hzero, hlast⟩ := exists_last_nonzero (keyWindow ss a depth)
  have hlen8 : (keyWindow ss a depth).length = 8 := length_window _ _
  have hlen8' : (window 8 ((ss.chars a).drop depth)).length = 8 := length_window _ _
  have hdepth : lcpKeyDepth (getUint64 ss a depth) = m := by
    refine lcpKeyDepth_eq hkey (by omega) (fun i hi hi8 => ?_) (hlast.imp id fun hne => ?_)
    · exact keyBytes_getElem?_zero _ hzero hi (by omega)
    · rcases Nat.eq_zero_or_pos m with rfl | hpos
      · exact absurd (hzero 0 (le_refl _) (by omega)) hne
      · exact keyBytes_getElem?_ne_zero _ (by omega) hne
  have hbyte : ∀ i, i < 8 → (keyWindow ss a depth)[i]? =
      some (((ss.chars a)[depth + i]?).elim 0 BitVec.toNat) := by
    intro i hi
    rw [keyWindow, window_getElem? _ hi, List.getElem?_drop]
  refine ⟨hd, ?_, fun hlt => ?_⟩
  · rcases Nat.lt_or_ge m 8 with hm8 | hm8
    · omega
    · -- all eight bytes are used, yet the last one is zero
      rw [lowByte_eq_zero_iff hkey] at h0
      rcases hlast with rfl | hne
      · omega
      · exact absurd h0 (keyBytes_getElem?_ne_zero _ (by omega)
          (by rwa [show m - 1 = 7 by omega] at hne))
  · rcases hlast with rfl | hne
    · omega
    · rw [hbyte (m - 1) (by omega), show depth + (m - 1) = ss.length a - 1 by omega] at hne
      intro hz
      rw [hz] at hne
      exact hne rfl

/-- On a length-delimited set strings that agree before `depth` and have equal keys with a
zero low byte are finished exactly when both end at most seven characters behind `depth`, not
with a zero character, and no difference is hidden by sign extension. -/
theorem zeroByteFinished_iff (h : ss.BaseDerived) (a b : S) (depth : ℕ)
    (hagree : (ss.chars a).take depth = (ss.chars b).take depth)
    (hk : getUint64 ss a depth = getUint64 ss b depth)
    (h0 : lowByte (getUint64 ss a depth) = 0) :
    ZeroByteFinished ss a b depth ↔ EndsInWindow ss a depth ∧ EndsInWindow ss b depth ∧
      (ss.signedChar = true → SameInFront ss a b depth) := by
  constructor
  · intro hfin
    obtain ⟨heq, hlcp⟩ := hfin hk h0
    have hlcp' := hlcp
    rw [← heq, lcpLen_self, ss.length_chars] at hlcp
    rw [heq, lcpLen_self, ss.length_chars, hk] at hlcp'
    refine ⟨endsInWindow_of_lcpKeyDepth h hlcp h0, endsInWindow_of_lcpKeyDepth h hlcp' (hk ▸ h0),
      fun _ => ?_⟩
    rw [SameInFront, keyWindow, keyWindow, heq]
  · rintro ⟨ha, hb, hfront⟩ - -
    have hrest := drop_chars_of_endsInWindow ha hb (keyWindow_eq_of_sameInFront h hk hfront)
    have heq : ss.chars a = ss.chars b := by
      rw [← List.take_append_drop depth (ss.chars a), hagree, hrest, List.take_append_drop]
    refine ⟨heq, ?_⟩
    rw [← heq, lcpLen_self, ss.length_chars, lcpKeyDepth_of_endsInWindow h ha]
    have := ha.1
    omega

end ZeroByte

/-- The strings `"ab\x80"`, `"ab\x80"` and `"a\x80"`, one behind the other. -/
private def memZeroByte : ℕ → CharType :=
  fun i => [97, 98, 128, 97, 98, 128, 97, 128].getD i 0

/-- An empty `std::string` and the one-character string `"\0"` have equal keys, and so have
`"a\x80"` and `"b\x80"`, whose first characters sign extension hides. -/
theorem zeroByte_not_finished :
    ¬ ZeroByteFinished (VectorStringSet fun _ => 0) ⟨0, 0⟩ ⟨0, 1⟩ 0 ∧
    ¬ ZeroByteFinished (VectorStringSet memZeroByte) ⟨6, 2⟩ ⟨1, 2⟩ 0 := by
  constructor
  · intro h
    exact absurd (h (by decide) (by decide)).1 (by decide)
  · intro h
    exact absurd (h (by decide) (by decide)).1 (by decide)

/-- The criterion at the two copies of `"ab\x80"`, behind their first character. -/
theorem zeroByteFinished_copies :
    ZeroByteFinished (VectorStringSet memZeroByte) ⟨0, 3⟩ ⟨3, 3⟩ 1 := by
  have hfront : (keyWindow (VectorStringSet memZeroByte) ⟨0, 3⟩ 1).take 1 =
      (keyWindow (VectorStringSet memZeroByte) ⟨3, 3⟩ 1).take 1 := by decide
  exact (zeroByteFinished_iff (VectorStringSet.baseDerived _) ⟨0, 3⟩ ⟨3, 3⟩ 1 (by decide)
    (by decide) (by decide)).mpr
    ⟨⟨by decide, by decide, by decide⟩, ⟨by decide, by decide, by decide⟩, fun _ => hfront⟩

end StringSampleSort
