import StringSampleSort.Library.Slice
import StringSampleSort.Sequential.Classifier
import StringSampleSort.Tools.StringOrder
import Mathlib.Data.Prod.Lex

/-!
# Strings in buckets

What it says about strings of a range that their keys belong into certain buckets: strings of
different buckets are in the order of the buckets, and strings of one bucket share more
characters, by which the depth of the next level is chosen.

## Main results

- `Bucketed.lt_of_bucket_lt`: strings of a lower bucket are smaller
- `Bucketed.less_share`, `Bucketed.equal_share`: the depths of the buckets
- `Bucketed.eq_of_done`: strings of a done bucket are the same
- `Arranged.even_lt`, `Arranged.odd_depth`: what makes the recursion end
- `Arranged.even_decreases`, `Arranged.odd_decreases`: characters left and number of strings, in
  lexicographic order, go down
-/

namespace StringSampleSort

open Library Slice

/-- The strings in `R` share `depth` characters, and keys are put into the buckets between and at
the sorted splitters. -/
structure Bucketed (R : List CharType → Prop) (depth : ℕ) (ss : List KeyType)
    (bkt : KeyType → ℕ) : Prop where
  noNul : ∀ x, R x → NoNul x
  share : ∀ x y, R x → R y → SharePrefix depth x y
  sorted : ss.Pairwise (· ≤ ·)
  splitter : ∀ k ∈ ss, ∃ x, R x ∧ keyAt x depth = k
  isBucket : ∀ key, IsBucket ss key (bkt key)

/-- How many characters more the strings of the even bucket before splitter `i` share. -/
def lessLcp (ss : List KeyType) (i : ℕ) : ℕ :=
  if i = 0 ∨ ss.length ≤ i then 0 else lcpKeyType (ss.getD (i - 1) 0) (ss.getD i 0)

/-- Whatever class builds it, `splitter_lcp` holds these depths, with or without a marker. -/
theorem splitterLcp_eq_lessLcp {treebits : ℕ} {cl : ClassifierClass}
    (hcl : cl.Instantiable treebits) (samples : ℕ → KeyType) (samplesize : ℕ) {i : ℕ}
    (hi : i ≤ numsplitters treebits) :
    let a := (cl.instantiate treebits).build samples samplesize
    (a.lcp i &&& 0x7F).toNat = lessLcp (cl.splitters treebits a) i := by
  intro a
  have hlen := length_splitters cl treebits a
  rcases Nat.eq_or_lt_of_le hi with rfl | hlt
  · have hlast : a.lcp (numsplitters treebits) = 0 := by
      have := (treeBuilder_spec (instantiable_le_31 hcl) samples samplesize).2.2.1
      cases cl <;> first | exact this | exact if_pos (Or.inl rfl)
    rw [hlast, lessLcp, if_pos (Or.inr hlen.le)]
    rfl
  · have hget : (cl.splitters treebits a)[i]? = some ((cl.splitters treebits a).getD i 0) := by
      rw [List.getD_eq_getElem?_getD, List.getElem?_eq_getElem (hlen ▸ hlt)]
      rfl
    refine (splitterLcp_spec hcl samples samplesize hget).1.trans ?_
    rw [lessLcp]
    by_cases h0 : i = 0
    · rw [if_pos h0, if_pos (Or.inl h0)]
    · rw [if_neg h0, if_neg (by omega)]

namespace Bucketed

variable {R : List CharType → Prop} {depth : ℕ} {ss : List KeyType} {bkt : KeyType → ℕ}
  {x y : List CharType} {i : ℕ}

theorem bucket_lt (h : Bucketed R depth ss bkt) (key : KeyType) : bkt key < 2 * ss.length + 1 :=
  (h.isBucket key).lt

/-- The key of a string in an odd bucket is the splitter of the bucket. -/
theorem splitter_of_odd (h : Bucketed R depth ss bkt) {key : KeyType} (hb : bkt key = 2 * i + 1) :
    ss[i]? = some key :=
  (h.isBucket key).splitter_of_odd hb

/-- Buckets are ordered as keys. -/
theorem key_lt_of_bucket_lt (h : Bucketed R depth ss bkt) {a b : KeyType} (hlt : bkt a < bkt b) :
    a < b :=
  key_lt_of_isBucket h.sorted h.isBucket hlt

/-- Strings of a lower bucket are smaller. -/
theorem lt_of_bucket_lt (h : Bucketed R depth ss bkt) (hx : R x) (hy : R y)
    (hlt : bkt (keyAt x depth) < bkt (keyAt y depth)) : x < y :=
  lt_of_keyAt_lt (h.noNul x hx) (h.noNul y hy) (h.share x y hx hy) (h.key_lt_of_bucket_lt hlt)

/-- A key in the even bucket before splitter `i` lies between the neighbouring splitters. -/
theorem between_of_even (h : Bucketed R depth ss bkt) {key : KeyType} (hb : bkt key = 2 * i) :
    (∀ j < i, ∀ k, ss[j]? = some k → k < key) ∧ ∀ j, i ≤ j → ∀ k, ss[j]? = some k → key < k :=
  (h.isBucket key).between h.sorted hb

/-- Strings of an even bucket share what the neighbouring splitters have in common. -/
theorem less_share (h : Bucketed R depth ss bkt) (hx : R x) (hy : R y)
    (hbx : bkt (keyAt x depth) = 2 * i) (hby : bkt (keyAt y depth) = 2 * i) :
    SharePrefix (depth + lessLcp ss i) x y := by
  rw [lessLcp]
  split
  · exact h.share x y hx hy
  · next hi =>
    rw [not_or, not_le] at hi
    have hprev : ss[i - 1]? = some (ss.getD (i - 1) 0) := by
      rw [List.getD_eq_getElem?_getD, List.getElem?_eq_getElem (by omega)]
      rfl
    have hnext : ss[i]? = some (ss.getD i 0) := by
      rw [List.getD_eq_getElem?_getD, List.getElem?_eq_getElem hi.2]
      rfl
    obtain ⟨a, ha, hka⟩ := h.splitter _ (List.mem_of_getElem? hprev)
    obtain ⟨z, hz, hkz⟩ := h.splitter _ (List.mem_of_getElem? hnext)
    -- both strings share it with that of the splitter before them
    have hshare : ∀ s, R s → bkt (keyAt s depth) = 2 * i →
        SharePrefix (depth + lcpKeyType (keyAt a depth) (keyAt z depth)) a s := by
      intro s hs hbs
      obtain ⟨hlow, hhigh⟩ := h.between_of_even hbs
      refine SharePrefix.of_between (h.noNul a ha) (h.noNul s hs) (h.share a s ha hs) ?_ ?_
      · rw [hka]
        exact hlow _ (by omega) _ hprev
      · rw [hkz]
        exact hhigh _ (le_refl _) _ hnext
    rw [← hka, ← hkz]
    exact (hshare x hx hbx).symm.trans (hshare y hy hby)

/-- Strings of an odd bucket have the same key. -/
theorem key_eq_of_odd (h : Bucketed R depth ss bkt) {a b : KeyType} (ha : bkt a = 2 * i + 1)
    (hb : bkt b = 2 * i + 1) : a = b :=
  Option.some_inj.mp ((h.splitter_of_odd ha).symm.trans (h.splitter_of_odd hb))

/-- Strings of an odd bucket that is not done share eight more characters. -/
theorem equal_share (h : Bucketed R depth ss bkt) (hx : R x) (hy : R y)
    (hbx : bkt (keyAt x depth) = 2 * i + 1) (hby : bkt (keyAt y depth) = 2 * i + 1)
    (hlow : lowByte (ss.getD i 0) ≠ 0) : SharePrefix (depth + 8) x y := by
  refine SharePrefix.of_keyAt_eq (h.noNul x hx) (h.noNul y hy) (h.share x y hx hy)
    (h.key_eq_of_odd hbx hby) ?_
  rwa [List.getD_eq_getElem?_getD, h.splitter_of_odd hbx] at hlow

/-- Strings of a done bucket are the same. -/
theorem eq_of_done (h : Bucketed R depth ss bkt) (hx : R x) (hy : R y)
    (hbx : bkt (keyAt x depth) = 2 * i + 1) (hby : bkt (keyAt y depth) = 2 * i + 1)
    (hlow : lowByte (ss.getD i 0) = 0) : x = y := by
  refine eq_of_keyAt_eq (h.noNul x hx) (h.noNul y hy) (h.share x y hx hy)
    (h.key_eq_of_odd hbx hby) ?_
  rwa [List.getD_eq_getElem?_getD, h.splitter_of_odd hbx] at hlow

/-- Some string of the range is in an odd bucket: one whose key is a splitter. -/
theorem exists_odd (h : Bucketed R depth ss bkt) (hss : ss ≠ []) :
    ∃ x, R x ∧ bkt (keyAt x depth) % 2 = 1 := by
  obtain ⟨k, hk⟩ := List.exists_mem_of_ne_nil ss hss
  obtain ⟨x, hx, hkey⟩ := h.splitter k hk
  refine ⟨x, hx, ?_⟩
  rw [hkey]
  rcases h.isBucket k with ⟨j, hj, -⟩ | ⟨hnot, -⟩
  · omega
  · exact absurd hk hnot

end Bucketed

/-! ## Ranges -/

section Ranges

variable {S : Type} (chars : S → List CharType) (strings : ℕ → S) (n depth : ℕ)

/-- All strings of the range agree on their first `depth` characters, and none is shorter. -/
def SharesDepth : Prop :=
  ∀ p < n, ∀ q < n, SharePrefix depth (chars (strings p)) (chars (strings q))

/-- The strings of a range. -/
def InRange (x : List CharType) : Prop := ∃ p < n, chars (strings p) = x

/-- The characters that the strings of a range have left behind the depth. -/
def charsLeft : ℕ := ((contents strings n).map fun s => (chars s).length - depth).sum

/-- What goes down in each recursive call: the characters left, then the number of strings. -/
def recursionMeasure : ℕ ×ₗ ℕ := toLex (charsLeft chars strings n depth, n)

variable {chars strings n depth} {strings' : ℕ → S}

/-- A rearrangement has strings of the range only. -/
theorem exists_of_perm (hperm : (contents strings' n).Perm (contents strings n)) {p : ℕ}
    (hp : p < n) : ∃ q < n, strings q = strings' p :=
  mem_contents.mp (hperm.mem_iff.mp (mem_contents.mpr ⟨p, hp, rfl⟩))

theorem SharesDepth.perm (h : SharesDepth chars strings n depth)
    (hperm : (contents strings' n).Perm (contents strings n)) :
    SharesDepth chars strings' n depth := by
  intro p hp q hq
  obtain ⟨p', hp', hpeq⟩ := exists_of_perm hperm hp
  obtain ⟨q', hq', hqeq⟩ := exists_of_perm hperm hq
  rw [← hpeq, ← hqeq]
  exact h p' hp' q' hq'

theorem SharesDepth.le_length (h : SharesDepth chars strings n depth) {p : ℕ} (hp : p < n) :
    depth ≤ (chars (strings p)).length := (h p hp p hp).left

theorem charsLeft_eq_slice (A : ℕ → S) (lo m depth : ℕ) :
    charsLeft chars (fun k => A (lo + k)) m depth =
      ((slice A lo m).map fun s => (chars s).length - depth).sum := rfl

theorem charsLeft_perm (hperm : (contents strings' n).Perm (contents strings n)) (depth : ℕ) :
    charsLeft chars strings' n depth = charsLeft chars strings n depth :=
  (hperm.map _).sum_eq

/-- A part of the range does not have more characters left. -/
theorem charsLeft_window_le (chars : S → List CharType) (A : ℕ → S) {lo m : ℕ}
    (hle : lo + m ≤ n) (depth : ℕ) :
    charsLeft chars (fun k => A (lo + k)) m depth ≤ charsLeft chars A n depth := by
  rw [charsLeft_eq_slice, charsLeft, ← slice_zero,
    Slice.slice_split A (Nat.zero_le lo) (by omega : lo + m ≤ 0 + n), List.map_append,
    List.map_append, List.sum_append, List.sum_append]
  omega

/-- Fewer characters are left behind a greater depth. -/
theorem charsLeft_anti (A : ℕ → S) (n : ℕ) {d e : ℕ} (hde : d ≤ e) :
    charsLeft chars A n e ≤ charsLeft chars A n d := by
  refine List.sum_le_sum fun s _ => ?_
  omega

/-- Each string that goes on has fewer characters left behind a greater depth. -/
theorem charsLeft_add (chars : S → List CharType) (A : ℕ → S) {n d k : ℕ}
    (h : ∀ p < n, d + k ≤ (chars (A p)).length) :
    charsLeft chars A n (d + k) + n * k = charsLeft chars A n d := by
  induction n with
  | zero => simp [charsLeft, contents]
  | succ n ih =>
    have hn := h n (Nat.lt_succ_self n)
    have ih := ih fun p hp => h p (by omega)
    simp only [charsLeft, contents, List.range_succ, List.map_append, List.sum_append,
      List.map_cons, List.map_nil, List.sum_cons, List.sum_nil, Nat.add_zero] at ih ⊢
    rw [Nat.add_mul]
    omega

end Ranges

/-! ## Arranged ranges -/

/-- `sorted` is a range that has been rearranged by buckets. -/
structure Arranged {S : Type} (chars : S → List CharType) (strings : ℕ → S) (n depth : ℕ)
    (ss : List KeyType) (bkt : KeyType → ℕ) (size : ℕ → ℕ) (sorted : ℕ → S) : Prop where
  bucketed : Bucketed (InRange chars strings n) depth ss bkt
  perm : (contents sorted n).Perm (contents strings n)
  total : bucketStart size (2 * ss.length + 1) = n
  bucket : ∀ b < 2 * ss.length + 1, ∀ p, InWindow (bucketStart size b) (size b) p →
    bkt (keyAt (chars (sorted p)) depth) = b

namespace Arranged

variable {S : Type} {chars : S → List CharType} {strings : ℕ → S} {n depth : ℕ}
  {ss : List KeyType} {bkt : KeyType → ℕ} {size : ℕ → ℕ} {sorted : ℕ → S} {b c p q i : ℕ}

/-- Only the sizes of the buckets there are matter. -/
theorem congr (h : Arranged chars strings n depth ss bkt size sorted) {size' : ℕ → ℕ}
    (heq : ∀ b < 2 * ss.length + 1, size b = size' b) :
    Arranged chars strings n depth ss bkt size' sorted := by
  have hstart : ∀ b ≤ 2 * ss.length + 1, bucketStart size b = bucketStart size' b := fun b hb =>
    bucketStart_congr fun c hc => heq c (hc.trans_le hb)
  refine ⟨h.bucketed, h.perm, (hstart _ (le_refl _)).symm.trans h.total, fun b hb p hp => ?_⟩
  rw [← hstart b hb.le, ← heq b hb] at hp
  exact h.bucket b hb p hp

theorem lt_size (h : Arranged chars strings n depth ss bkt size sorted)
    (hb : b < 2 * ss.length + 1) (hp : InWindow (bucketStart size b) (size b) p) : p < n :=
  hp.2.trans_le (h.total ▸ bucketEnd_le size hb)

theorem inRange (h : Arranged chars strings n depth ss bkt size sorted) (hp : p < n) :
    InRange chars strings n (chars (sorted p)) := by
  obtain ⟨q, hq, heq⟩ := exists_of_perm h.perm hp
  exact ⟨q, hq, by rw [heq]⟩

/-- Strings of a lower bucket are smaller. -/
theorem lt_of_bucket_lt (h : Arranged chars strings n depth ss bkt size sorted)
    (hb : b < 2 * ss.length + 1) (hc : c < 2 * ss.length + 1) (hbc : b < c)
    (hp : InWindow (bucketStart size b) (size b) p)
    (hq : InWindow (bucketStart size c) (size c) q) : chars (sorted p) < chars (sorted q) := by
  refine h.bucketed.lt_of_bucket_lt (h.inRange (h.lt_size hb hp)) (h.inRange (h.lt_size hc hq)) ?_
  rwa [h.bucket b hb p hp, h.bucket c hc q hq]

/-- The strings of an even bucket share their depth. -/
theorem even_share (h : Arranged chars strings n depth ss bkt size sorted)
    (hb : 2 * i < 2 * ss.length + 1) :
    SharesDepth chars (fun k => sorted (bucketStart size (2 * i) + k)) (size (2 * i))
      (depth + lessLcp ss i) := by
  intro p hp q hq
  have hin : ∀ k < size (2 * i), InWindow (bucketStart size (2 * i)) (size (2 * i))
      (bucketStart size (2 * i) + k) := fun k hk => ⟨Nat.le_add_right .., by omega⟩
  exact h.bucketed.less_share (h.inRange (h.lt_size hb (hin p hp)))
    (h.inRange (h.lt_size hb (hin q hq))) (h.bucket _ hb _ (hin p hp)) (h.bucket _ hb _ (hin q hq))

/-- The strings of an odd bucket that is not done share eight characters more. -/
theorem odd_share (h : Arranged chars strings n depth ss bkt size sorted)
    (hb : 2 * i + 1 < 2 * ss.length + 1) (hlow : lowByte (ss.getD i 0) ≠ 0) :
    SharesDepth chars (fun k => sorted (bucketStart size (2 * i + 1) + k)) (size (2 * i + 1))
      (depth + 8) := by
  intro p hp q hq
  have hin : ∀ k < size (2 * i + 1), InWindow (bucketStart size (2 * i + 1)) (size (2 * i + 1))
      (bucketStart size (2 * i + 1) + k) := fun k hk => ⟨Nat.le_add_right .., by omega⟩
  exact h.bucketed.equal_share (h.inRange (h.lt_size hb (hin p hp)))
    (h.inRange (h.lt_size hb (hin q hq))) (h.bucket _ hb _ (hin p hp)) (h.bucket _ hb _ (hin q hq))
    hlow

/-- The strings of a done bucket are the same. -/
theorem eq_of_done (h : Arranged chars strings n depth ss bkt size sorted)
    (hb : 2 * i + 1 < 2 * ss.length + 1) (hlow : lowByte (ss.getD i 0) = 0)
    (hp : InWindow (bucketStart size (2 * i + 1)) (size (2 * i + 1)) p)
    (hq : InWindow (bucketStart size (2 * i + 1)) (size (2 * i + 1)) q) :
    chars (sorted p) = chars (sorted q) :=
  h.bucketed.eq_of_done (h.inRange (h.lt_size hb hp)) (h.inRange (h.lt_size hb hq))
    (h.bucket _ hb _ hp) (h.bucket _ hb _ hq) hlow

/-- An even bucket has fewer strings than the range: those whose keys are splitters are in odd
buckets. -/
theorem even_lt (h : Arranged chars strings n depth ss bkt size sorted) (hss : ss ≠ [])
    (hb : 2 * i < 2 * ss.length + 1) : size (2 * i) < n := by
  obtain ⟨x, ⟨q, hq, hx⟩, hodd⟩ := h.bucketed.exists_odd hss
  obtain ⟨p, hp, hpq⟩ := exists_of_perm h.perm.symm hq
  rw [← h.total] at hp
  obtain ⟨c, hc, hpc⟩ := exists_bucket size hp
  have hbucket := h.bucket c hc p hpc
  rw [hpq, hx] at hbucket
  have hend := bucketEnd_le size hb
  rw [h.total] at hp hend
  by_contra hge
  have hzero : bucketStart size (2 * i) = 0 ∧ size (2 * i) = n := by omega
  have hci : c = 2 * i := bucket_unique hpc.1 hpc.2 (by omega) (by omega)
  omega

/-- The strings of an odd bucket that is not done have eight characters left. -/
theorem odd_depth (h : Arranged chars strings n depth ss bkt size sorted)
    (hb : 2 * i + 1 < 2 * ss.length + 1) (hlow : lowByte (ss.getD i 0) ≠ 0)
    (hp : InWindow (bucketStart size (2 * i + 1)) (size (2 * i + 1)) p) :
    depth + 8 ≤ (chars (sorted p)).length := by
  have hlt : p - bucketStart size (2 * i + 1) < size (2 * i + 1) := by
    have := hp.1
    have := hp.2
    omega
  have hle := (h.odd_share hb hlow _ hlt _ hlt).left
  simp only at hle
  rwa [Nat.add_sub_cancel' hp.1] at hle

/-- A call for an even bucket, at any depth from that of the range on. -/
theorem even_decreases (h : Arranged chars strings n depth ss bkt size sorted) (hss : ss ≠ [])
    (hb : 2 * i < 2 * ss.length + 1) {depth' : ℕ} (hdepth : depth ≤ depth') :
    recursionMeasure chars (fun k => sorted (bucketStart size (2 * i) + k)) (size (2 * i)) depth' <
      recursionMeasure chars strings n depth := by
  have hend := bucketEnd_le size hb
  rw [h.total] at hend
  have hle := (charsLeft_anti _ (size (2 * i)) hdepth).trans
    (charsLeft_window_le chars sorted hend depth)
  rw [charsLeft_perm h.perm] at hle
  rw [recursionMeasure, recursionMeasure, Prod.Lex.toLex_lt_toLex]
  rcases Nat.eq_or_lt_of_le hle with heq | hlt
  · exact Or.inr ⟨heq, h.even_lt hss hb⟩
  · exact Or.inl hlt

/-- A call for an odd bucket that is not done. -/
theorem odd_decreases (h : Arranged chars strings n depth ss bkt size sorted)
    (hb : 2 * i + 1 < 2 * ss.length + 1) (hlow : lowByte (ss.getD i 0) ≠ 0)
    (hsize : 0 < size (2 * i + 1)) :
    recursionMeasure chars (fun k => sorted (bucketStart size (2 * i + 1) + k))
      (size (2 * i + 1)) (depth + 8) < recursionMeasure chars strings n depth := by
  have hend := bucketEnd_le size hb
  rw [h.total] at hend
  have hadd := charsLeft_add chars
    (fun k => sorted (bucketStart size (2 * i + 1) + k)) (n := size (2 * i + 1)) (d := depth)
    (k := 8) fun p hp => h.odd_depth hb hlow ⟨Nat.le_add_right .., by omega⟩
  have hle := charsLeft_window_le chars sorted hend depth
  rw [charsLeft_perm h.perm] at hle
  rw [recursionMeasure, recursionMeasure, Prod.Lex.toLex_lt_toLex]
  exact Or.inl (by omega)

end Arranged

end StringSampleSort
