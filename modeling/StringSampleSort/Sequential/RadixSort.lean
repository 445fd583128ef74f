import StringSampleSort.Library.BucketSort
import StringSampleSort.Sequential.BucketOrder
import StringSampleSort.Sequential.InsertionSort
import StringSampleSort.Sequential.PermuteInPlace

/-!
# Radix sort

Model of `inssort` of `src/sequential/inssort.hpp` and of `msd_CI` of
`src/sequential/bingmann-radix_sort.hpp`, which the sequential sample sorts call for small ranges.

`inssort` takes the depth as an `int`, so strings have to be shorter than `2 ^ 31` characters.

## Main results

- `inssort_spec`: strings that reach the depth are sorted
- `msdCI_spec`: with enough rounds of recursion the strings are sorted, and all calls are for
  strings that share their depth
-/

namespace StringSampleSort

open Library Slice

/-! ## Model -/

/-- A call for the `n` strings from `strings` on. -/
structure SortCall (mem : ℕ → CharType) where
  strings : ℕ → CString mem
  n : ℕ
  depth : ℕ

/-- What a sort has done: the strings as it leaves them, and the calls that it has made. -/
abbrev SortResult (mem : ℕ → CharType) := (ℕ → CString mem) × List (SortCall mem)

section Model

variable {mem : ℕ → CharType}

/-- A `size_t` that is passed as an `int`. -/
def toInt (x : ℕ) : ℤ := (BitVec.ofNat 32 x).toInt

/-- The comparison of `inssort`: `for (s = *(pj-1)+d, t = tmp+d; *s == *t && *s != 0; ++s, ++t);`
and then `*s <= *t`. -/
def inssortLeq (mem : ℕ → CharType) (d : ℤ) (a b : CString mem) : Bool :=
  let c := (UCharStringSet mem).scanEqual a b a.len (a.ptr + d).toNat (b.ptr + d).toNat
  (UCharStringSet mem).isLeq a c.1 b c.2

/-- `inssort(str, n, d)`, whose loop ends with `--n > 0`. -/
def inssort (strings : ℕ → CString mem) (n d : ℤ) : ℕ → CString mem :=
  insertionRounds (inssortLeq mem d) (n - 1).toNat strings

/-- `g_inssort_threshold`. -/
def inssortThreshold : ℕ := 32

/-- `(*s)[depth]`. -/
def charAt (depth : ℕ) (s : CString mem) : ℕ := (mem (s.ptr + depth)).toNat

/-- `msd_CI2_run(strings, charcache, n, depth)`: `bkt_size` and the strings, which are moved as in
`sample_sort_generic`. -/
def msdCI2Run (strings : ℕ → CString mem) (n depth : ℕ) :
    Option ((ℕ → ℕ) × (ℕ → CString mem)) :=
  let charcache := (contents strings n).map (charAt depth)
  let bktSize := fun c => charcache.count c
  (permuteInPlace 256 n bktSize strings fun i => charcache.getD i 0).map fun strings =>
    (bktSize, strings)

/-- `msd_CI2(strings, charcache, n, depth)`, for at most `fuel` levels of recursion. -/
def msdCI2 : ℕ → (ℕ → CString mem) → ℕ → ℕ → Option (SortResult mem)
  | 0, _, _, _ => none
  | fuel + 1, strings, n, depth =>
    if n < inssortThreshold then
      some (inssort strings (toInt n) (toInt depth), [⟨strings, n, depth⟩])
    else
      (msdCI2Run strings n depth).bind fun r =>
        sortBuckets (fun i => if r.1 i > 1 then
            some fun bsum => msdCI2 fuel bsum (r.1 i) (depth + 1) else none)
          r.1 255 1 (r.1 0) (r.2, [⟨strings, n, depth⟩])

/-- `msd_CI(strings, n, depth)`, which brings along the cache for the characters. -/
def msdCI (fuel : ℕ) (strings : ℕ → CString mem) (n depth : ℕ) : Option (SortResult mem) :=
  msdCI2 fuel strings n depth

/-- The call is for strings that share its depth. -/
def SortCall.Shares (c : SortCall mem) : Prop :=
  SharesDepth (UCharStringSet mem).chars c.strings c.n c.depth

/-- The strings have been sorted, and all calls were for strings that share their depth. -/
def StringsSorted (strings : ℕ → CString mem) (n : ℕ) (r : SortResult mem) : Prop :=
  SortsTo (UCharStringSet mem).chars SortCall.Shares strings n r

end Model

/-! ## Insertion sort -/

section Inssort

variable {mem : ℕ → CharType}

theorem toInt_eq {x : ℕ} (hx : x < 2 ^ 31) : toInt x = x := by
  rw [toInt, BitVec.toInt_eq_toNat_of_lt, BitVec.toNat_ofNat, Nat.mod_eq_of_lt (by omega)]
  rw [BitVec.toNat_ofNat, Nat.mod_eq_of_lt (by omega)]
  omega

/-- From a shared depth on, the comparison decides the order of the strings. -/
theorem inssortLeq_decides (w : List CharType) (depth : ℕ) :
    Decides (inssortLeq mem depth) (UCharStringSet mem).chars
      fun s => SharePrefix depth w ((UCharStringSet mem).chars s) := by
  intro a b ha hb
  have hss := UCharStringSet.sortable mem
  have hs := ha.symm.trans hb
  have hl := hs.left
  have hr := hs.right
  rw [StringSet.length_chars] at hl hr
  have hcmp := hss.isLeq_iff a b _ rfl
  have hscan := StringSet.scanEqual_eq hss.lawful a b a.len depth depth hl hr (Nat.sub_le _ _)
  rw [← hs.lcpLen_eq] at hscan
  change (UCharStringSet mem).scanEqual a b a.len (a.ptr + depth) (b.ptr + depth) = _ at hscan
  rw [inssortLeq, ← Nat.cast_add, ← Nat.cast_add, Int.toNat_natCast, Int.toNat_natCast, hscan]
  refine ⟨hcmp.mp, fun hfalse => ?_⟩
  rw [← Bool.not_eq_true, hcmp] at hfalse
  exact (not_le.mp hfalse).le

theorem inssort_spec {strings : ℕ → CString mem} {n depth : ℕ} (hn : n < 2 ^ 31)
    (hdepth : 0 < n → depth < 2 ^ 31) (hshare : SharesDepth (UCharStringSet mem).chars strings n depth) :
    MonotoneIn ((UCharStringSet mem).chars ∘ inssort strings (toInt n) (toInt depth)) 0 n ∧
      (contents (inssort strings (toInt n) (toInt depth)) n).Perm (contents strings n) := by
  rw [toInt_eq hn, inssort, show ((n : ℤ) - 1).toNat = n - 1 by omega]
  -- for no strings the depth may be out of the range of an `int`
  rcases Nat.eq_zero_or_pos n with rfl | hpos
  · exact ⟨fun p q hp => absurd hp.2 (by omega), List.Perm.refl _⟩
  · rw [toInt_eq (hdepth hpos)]
    obtain ⟨h₁, h₂, -⟩ := insertionRounds_spec (inssortLeq_decides _ depth)
      (show n - 1 < n by omega) fun p hp => hshare 0 hpos p hp
    refine ⟨fun p q hp hq hpq => h₁ p q hpq ?_, h₂⟩
    have := hq.2
    omega

end Inssort

/-! ## Characters at a depth -/

section Characters

variable {x y : List CharType} {d : ℕ}

/-- Strings that share a prefix compare by the characters behind it, the end being the smallest
one. -/
theorem lt_of_getD_lt (hs : SharePrefix d x y) (h : x.getD d 0 < y.getD d 0) : x < y := by
  rw [List.getD_eq_getElem?_getD, List.getD_eq_getElem?_getD] at h
  -- behind the end of `y` its character would be 0, and nothing is smaller
  have hy : ∃ c, y[d]? = some c := by
    cases hy : y[d]? with
    | some c => exact ⟨c, rfl⟩
    | none =>
      rw [hy] at h
      exact absurd h (by simp)
  obtain ⟨c, hc⟩ := hy
  rw [hc] at h
  -- the strings differ right behind the shared prefix
  have hlcp : lcpLen x y = d := by
    refine (lcpLen_eq_iff x y d).mpr ⟨hs.left, hs.right, hs.take_eq, Or.inr (Or.inr fun heq => ?_)⟩
    rw [heq, hc] at h
    exact lt_irrefl _ h
  refine (lt_iff_lcpLen x y).mpr ⟨c, hlcp ▸ hc, fun e he => ?_⟩
  rw [hlcp] at he
  rwa [he] at h

/-- The same character behind a shared prefix is shared as well. -/
theorem SharePrefix.succ (hs : SharePrefix d x y) (heq : x.getD d 0 = y.getD d 0)
    (hx : x.getD d 0 ≠ 0) : SharePrefix (d + 1) x y := by
  have hlen : ∀ {z : List CharType}, z.getD d 0 ≠ 0 → d < z.length := fun hz => by
    by_contra hge
    exact hz (List.getD_eq_default _ _ (not_lt.mp hge))
  have hlx := hlen hx
  have hly := hlen (heq ▸ hx)
  rw [List.getD_eq_getElem _ _ hlx, List.getD_eq_getElem _ _ hly] at heq
  refine ⟨hlx, hly, ?_⟩
  rw [List.take_succ_eq_append_getElem hlx, List.take_succ_eq_append_getElem hly, hs.take_eq, heq]

/-- Strings without zero characters that end behind a shared prefix are the same. -/
theorem SharePrefix.eq_of_getD_eq_zero (hs : SharePrefix d x y) (hx : NoNul x) (hy : NoNul y)
    (hzx : x.getD d 0 = 0) (hzy : y.getD d 0 = 0) : x = y := by
  have hlen : ∀ {z : List CharType}, NoNul z → z.getD d 0 = 0 → z.length ≤ d := fun hz h0 => by
    by_contra hlt
    rw [List.getD_eq_getElem _ _ (not_le.mp hlt)] at h0
    exact hz _ (List.getElem_mem _) h0
  have htake := hs.take_eq
  rwa [List.take_of_length_le (hlen hx hzx), List.take_of_length_le (hlen hy hzy)] at htake

end Characters

/-! ## Radix sort -/

section Msd

variable {mem : ℕ → CharType} {strings : ℕ → CString mem} {n depth : ℕ}

theorem charAt_eq {s : CString mem} (hs : depth ≤ s.len) :
    charAt depth s = (((UCharStringSet mem).chars s).getD depth 0).toNat := by
  rw [charAt, List.getD_eq_getElem?_getD]
  exact congrArg BitVec.toNat (GenericCharStringSet.deref_eq hs)

/-- One level: the strings are rearranged by their characters. -/
theorem msdCI2Run_spec (strings : ℕ → CString mem) (n depth : ℕ) :
    ∃ size strings', msdCI2Run strings n depth = some (size, strings') ∧
      (contents strings' n).Perm (contents strings n) ∧ bucketStart size 256 = n ∧
      ∀ b < 256, ∀ p, InWindow (bucketStart size b) (size b) p → charAt depth (strings' p) = b := by
  have htallies := @tallies_count _ n 256 (charAt depth) strings fun p _ =>
    (mem ((strings p).ptr + depth)).isLt
  have hcache : ∀ p < n, ((contents strings n).map (charAt depth)).getD p 0 =
      charAt depth (strings p) := fun p hp => by simp [contents, hp]
  obtain ⟨strings', heq, hperm, hfilled⟩ := permuteInPlace_spec (by norm_num) hcache htallies
  refine ⟨_, strings', ?_, hperm, htallies.total, fun b hb p hp => hfilled b hb p hp.1 hp.2⟩
  rw [msdCI2Run, heq]
  rfl

/-- Places of a window of at most one place. -/
theorem monotoneIn_of_size_le_one {ι : Type*} [LinearOrder ι] (A : ℕ → ι) {lo m : ℕ} (hm : m ≤ 1) :
    MonotoneIn A lo m := by
  intro p q hp hq _
  have := hp.1
  have := hp.2
  have := hq.1
  have := hq.2
  rw [show p = q by omega]

/-- What one level leaves: the strings rearranged by their characters. -/
structure MsdLevel (strings strings' : ℕ → CString mem) (n depth : ℕ) (size : ℕ → ℕ) : Prop where
  shares : SharesDepth (UCharStringSet mem).chars strings n depth
  perm : (contents strings' n).Perm (contents strings n)
  total : bucketStart size 256 = n
  bucket : ∀ b < 256, ∀ p, InWindow (bucketStart size b) (size b) p → charAt depth (strings' p) = b

namespace MsdLevel

variable {strings' : ℕ → CString mem} {size : ℕ → ℕ} {b : ℕ}

theorem lt_size (h : MsdLevel strings strings' n depth size) (hb : b < 256) {p : ℕ}
    (hp : InWindow (bucketStart size b) (size b) p) : p < n := by
  have hend := bucketEnd_le size hb
  rw [h.total] at hend
  exact hp.2.trans_le hend

/-- The character of a string of bucket `b`. -/
theorem getD_chars (h : MsdLevel strings strings' n depth size) (hb : b < 256) {p : ℕ}
    (hp : InWindow (bucketStart size b) (size b) p) :
    (((UCharStringSet mem).chars (strings' p)).getD depth 0).toNat = b := by
  have hlt := h.lt_size hb hp
  have hle := (h.shares.perm h.perm p hlt p hlt).left
  rw [StringSet.length_chars] at hle
  rw [← charAt_eq hle]
  exact h.bucket b hb p hp

/-- The strings of the first bucket have ended. -/
theorem first_sorted (h : MsdLevel strings strings' n depth size) :
    MonotoneIn ((UCharStringSet mem).chars ∘ strings') (bucketStart size 0) (size 0) := by
  have hzero : ∀ p, InWindow (bucketStart size 0) (size 0) p →
      ((UCharStringSet mem).chars (strings' p)).getD depth 0 = 0 := fun p hp =>
    BitVec.eq_of_toNat_eq (h.getD_chars (b := 0) (by norm_num) hp)
  intro p q hp hq _
  have hs := h.shares.perm h.perm p (h.lt_size (by norm_num) hp) q (h.lt_size (by norm_num) hq)
  exact (hs.eq_of_getD_eq_zero (GenericCharStringSet.noNul false mem _)
    (GenericCharStringSet.noNul false mem _) (hzero p hp) (hzero q hq)).le

theorem inWindow {k : ℕ} (hk : k < size b) :
    InWindow (bucketStart size b) (size b) (bucketStart size b + k) :=
  ⟨Nat.le_add_right .., Nat.add_lt_add_left hk _⟩

/-- The strings of any other bucket share one character more. -/
theorem bucket_shares (h : MsdLevel strings strings' n depth size) (hpos : 1 ≤ b) (hb : b < 256) :
    SharesDepth (UCharStringSet mem).chars (fun k => strings' (bucketStart size b + k)) (size b)
      (depth + 1) := by
  intro p hp q hq
  -- only bucket 0 holds strings that end here
  have hne : ((UCharStringSet mem).chars (strings' (bucketStart size b + p))).getD depth 0 ≠ 0 := by
    intro h0
    have hb' := h.getD_chars hb (inWindow hp)
    rw [h0] at hb'
    exact absurd hb' (by simp; omega)
  refine SharePrefix.succ (h.shares.perm h.perm _ (h.lt_size hb (inWindow hp)) _
    (h.lt_size hb (inWindow hq))) (BitVec.eq_of_toNat_eq ?_) hne
  rw [h.getD_chars hb (inWindow hp), h.getD_chars hb (inWindow hq)]

/-- The strings of a bucket are strings of the range. -/
theorem exists_source (h : MsdLevel strings strings' n depth size) (hb : b < 256) {k : ℕ}
    (hk : k < size b) : ∃ q < n, strings q = strings' (bucketStart size b + k) :=
  exists_of_perm h.perm (h.lt_size hb (inWindow hk))

/-- Strings of a bucket that is sorted further go on behind the depth. -/
theorem levels_left (h : MsdLevel strings strings' n depth size) (hpos : 1 ≤ b) (hb : b < 256)
    (hsize : size b > 1) {fuel : ℕ} (hm : ∀ p < n, (strings p).len < depth + (fuel + 1)) :
    0 < fuel ∧ ∀ k < size b, (strings' (bucketStart size b + k)).len < depth + 1 + fuel := by
  have hrest : ∀ k < size b, (strings' (bucketStart size b + k)).len < depth + 1 + fuel := by
    intro k hk
    obtain ⟨q, hq, heq⟩ := h.exists_source hb hk
    have := hm q hq
    rw [← heq]
    omega
  refine ⟨?_, hrest⟩
  -- a string of the bucket reaches the next depth, so a level of recursion is left
  have hreach := (h.bucket_shares hpos hb 0 (by omega) 0 (by omega)).left
  rw [StringSet.length_chars] at hreach
  have := hrest 0 (by omega)
  change depth + 1 ≤ (strings' (bucketStart size b + 0)).len at hreach
  omega

/-- Strings of a lower bucket are smaller. -/
theorem lt_of_bucket_lt (h : MsdLevel strings strings' n depth size) {c : ℕ} (hbc : b < c)
    (hc : c < 256) {p q : ℕ} (hp : InWindow (bucketStart size b) (size b) p)
    (hq : InWindow (bucketStart size c) (size c) q) :
    (UCharStringSet mem).chars (strings' p) < (UCharStringSet mem).chars (strings' q) := by
  have hb : b < 256 := hbc.trans hc
  refine lt_of_getD_lt (h.shares.perm h.perm p (h.lt_size hb hp) q (h.lt_size hc hq)) ?_
  rw [BitVec.lt_def, h.getD_chars hb hp, h.getD_chars hc hq]
  exact hbc

end MsdLevel

theorem msdCI2Run_level (hshare : SharesDepth (UCharStringSet mem).chars strings n depth) :
    ∃ size strings', msdCI2Run strings n depth = some (size, strings') ∧
      MsdLevel strings strings' n depth size := by
  obtain ⟨size, strings', heq, hperm, htotal, hbucket⟩ := msdCI2Run_spec strings n depth
  exact ⟨size, strings', heq, hshare, hperm, htotal, hbucket⟩

/-- A depth that the strings reach is an `int`. -/
theorem SharesDepth.depth_lt (hshare : SharesDepth (UCharStringSet mem).chars strings n depth)
    (hlen : ∀ p < n, (strings p).len < 2 ^ 31) (hpos : 0 < n) : depth < 2 ^ 31 := by
  have hle := (hshare 0 hpos 0 hpos).left
  rw [StringSet.length_chars] at hle
  exact hle.trans_lt (hlen 0 hpos)

/-- With more levels than characters are left, the strings are sorted. -/
theorem msdCI2_spec {fuel : ℕ} (hfuel : 0 < fuel) (hlen : ∀ p < n, (strings p).len < 2 ^ 31)
    (hm : ∀ p < n, (strings p).len < depth + fuel)
    (hshare : SharesDepth (UCharStringSet mem).chars strings n depth) :
    ∃ r, msdCI2 fuel strings n depth = some r ∧ StringsSorted strings n r := by
  induction fuel generalizing strings n depth with
  | zero => omega
  | succ fuel ih =>
    have hlog : ∀ c ∈ [(⟨strings, n, depth⟩ : SortCall mem)], c.Shares := by
      intro c hc
      rw [List.mem_singleton.mp hc]
      exact hshare
    rw [msdCI2]
    split
    · next hsmall =>
      obtain ⟨hsorted, hperm⟩ := inssort_spec (hsmall.trans (by decide)) (hshare.depth_lt hlen) hshare
      exact ⟨_, rfl, hperm, hsorted, hlog⟩
    · obtain ⟨size, strings', heq, hlevel⟩ := msdCI2Run_level hshare
      -- every bucket from 1 on is sorted by a call at the next depth, or has one string
      have hok : ∀ b, 1 ≤ b → b < 1 + 255 → BucketOk (UCharStringSet mem).chars SortCall.Shares size
          strings' (fun i => if size i > 1 then
            some fun bsum => msdCI2 fuel bsum (size i) (depth + 1) else none) b := by
        intro b hpos hb
        rw [BucketOk]
        by_cases hsize : size b > 1
        · simp only [if_pos hsize]
          obtain ⟨hleft, hrest⟩ := hlevel.levels_left hpos hb hsize hm
          refine ih hleft (fun k hk => ?_) hrest (hlevel.bucket_shares hpos hb)
          obtain ⟨q, hq, heq⟩ := hlevel.exists_source hb hk
          rw [← heq]
          exact hlen q hq
        · simp only [if_neg hsize]
          exact monotoneIn_of_size_le_one _ (not_lt.mp hsize)
      obtain ⟨r, hr, hbelow⟩ := sortBuckets_spec hok ((sortedBelow_zero hlog).skip hlevel.first_sorted)
      -- bucket 0 needs no call, its strings are the same
      have hsorted := hbelow.sortsTo hlevel.total fun b c hbc hc p q hp hq =>
        (hlevel.lt_of_bucket_lt hbc (by omega) hp hq).le
      refine ⟨r, ?_, hsorted.perm.trans hlevel.perm, hsorted.sorted, hsorted.log⟩
      rw [heq, Option.bind_some, ← hr]
      simp [bucketStart]

/-- With more levels than characters are left, `msd_CI` sorts the strings. -/
theorem msdCI_spec {fuel : ℕ} (hfuel : 0 < fuel) (hlen : ∀ p < n, (strings p).len < 2 ^ 31)
    (hm : ∀ p < n, (strings p).len < depth + fuel)
    (hshare : SharesDepth (UCharStringSet mem).chars strings n depth) :
    ∃ r, msdCI fuel strings n depth = some r ∧ StringsSorted strings n r :=
  msdCI2_spec hfuel hlen hm hshare

end Msd

end StringSampleSort
