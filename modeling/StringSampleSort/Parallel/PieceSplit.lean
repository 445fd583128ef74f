import StringSampleSort.Parallel.BaseCase
import StringSampleSort.Sequential.BucketOrder

/-!
# Cutting a piece at key boundaries

A piece whose strings have been arranged by a monotone function of their keys, such as the bucket
or the comparison with a pivot, falls into pieces of its own.  The target is arranged by the same
function, so that the boundaries and the common prefixes there are those of the target.

## Main results

- `PieceOk.rearrange`: the strings of a piece are rearranged, in its array or in the other one
- `PieceOk.class_eq`, `PieceOk.sub_class`: the strings of a class are a piece
- `boundary_lcp`: different keys give the common prefix at a boundary
- `setEntry_written`: an entry is written
- `Covers.tiles`, `Covers.cut`: a window is covered by the windows into which it is cut
-/

namespace StringSampleSort

open Library Slice SortTask

/-! ## Windows that make up a window -/

/-- The window between two boundaries. -/
def tile (b : ℕ → ℕ) (i : ℕ) : Window := ⟨b i, b (i + 1) - b i⟩

section Tiles

variable {S : Type} {T : SortTask S} {g : Ghost S} {w : Window} {b : ℕ → ℕ} {K : ℕ}

theorem boundary_mono (hmono : ∀ i < K, b i ≤ b (i + 1)) {i j : ℕ} (hij : i ≤ j) (hj : j ≤ K) :
    b i ≤ b j := by
  induction j, hij using Nat.le_induction with
  | base => exact le_refl _
  | succ j hij ih => exact (ih (by omega)).trans (hmono j (by omega))

theorem tile_inside (hmono : ∀ i < K, b i ≤ b (i + 1)) (h0 : b 0 = w.lo)
    (hK : b K = w.lo + w.size) {i : ℕ} (hi : i < K) : (tile b i).Inside w := by
  have h₁ := boundary_mono hmono (Nat.zero_le i) hi.le
  have h₂ := boundary_mono hmono (show i + 1 ≤ K from hi) (le_refl K)
  have h₃ := hmono i hi
  exact ⟨by rw [← h0]; exact h₁, by rw [← hK]; simp only [tile]; omega⟩

theorem tile_apart (hmono : ∀ i < K, b i ≤ b (i + 1)) {i j : ℕ} (hij : i < j) (hj : j < K) :
    (tile b i).Apart (tile b j) := by
  have h₁ := boundary_mono hmono (show i + 1 ≤ j from hij) hj.le
  have h₂ := hmono i (by omega)
  left
  simp only [tile]
  omega

/-- Every place between the outer boundaries lies between two neighbouring ones. -/
theorem exists_tile (hmono : ∀ i < K, b i ≤ b (i + 1)) {p : ℕ} (h0 : b 0 ≤ p) (hK : p < b K) :
    ∃ i < K, (tile b i).Mem p := by
  induction K with
  | zero => omega
  | succ K ih =>
    by_cases hp : p < b K
    · obtain ⟨i, hi, hmem⟩ := ih (fun i hi => hmono i (by omega)) hp
      exact ⟨i, by omega, hmem⟩
    · refine ⟨K, Nat.lt_succ_self K, not_lt.mp hp, ?_⟩
      have := hmono K (Nat.lt_succ_self K)
      simp only [tile]
      omega

/-- A window is covered by the windows into which it is cut; the entries at the boundaries have
still to be written. -/
theorem SortTask.Covers.tiles (T : SortTask S) (g : Ghost S) (hmono : ∀ i < K, b i ≤ b (i + 1))
    (h0 : b 0 = w.lo) (hK : b K = w.lo + w.size) :
    T.Covers g w ((List.range K).map (tile b)) fun p => ∃ i < K, p = b i where
  inside u hu := by
    obtain ⟨i, hi, rfl⟩ := List.mem_map.mp hu
    exact tile_inside hmono h0 hK (List.mem_range.mp hi)
  apart := List.pairwise_map.mpr (List.pairwise_lt_range.imp_of_mem fun _ hj hij =>
    tile_apart hmono hij (List.mem_range.mp hj))
  places p hp := by
    obtain ⟨i, hi, hmem⟩ := exists_tile hmono (h0.trans_le hp.1) (hp.2.trans_eq hK.symm)
    exact Or.inr ⟨_, List.mem_map.mpr ⟨i, List.mem_range.mpr hi, rfl⟩, hmem⟩
  lcps p hp := by
    obtain ⟨i, hi, hlo, hhi⟩ := exists_tile hmono (h0.trans_le hp.mem.1) (hp.2.trans_eq hK.symm)
    -- the first place of a window is a boundary, all others are inside
    rcases Nat.eq_or_lt_of_le hlo with heq | hlt
    · exact Or.inr (Or.inr ⟨i, hi, heq.symm⟩)
    · exact Or.inr (Or.inl ⟨_, List.mem_map.mpr ⟨i, List.mem_range.mpr hi, rfl⟩, hlt, hhi⟩)

/-- What is left of a window behind its first `k` places. -/
def Window.rest (w : Window) (k : ℕ) : Window := ⟨w.lo + k, w.size - k⟩

theorem Window.rest_rest (w : Window) (j k : ℕ) : (w.rest j).rest k = w.rest (j + k) := by
  rw [rest, rest, rest, Nat.add_assoc, Nat.sub_sub]

/-- A window is cut in two. -/
theorem SortTask.Covers.cut (T : SortTask S) (g : Ghost S) {k : ℕ} (hk : k ≤ w.size) :
    T.Covers g w [⟨w.lo, k⟩, w.rest k] fun p => p = w.lo + k where
  inside u hu := by
    rcases List.mem_cons.mp hu with rfl | hu
    · exact ⟨le_refl _, Nat.add_le_add_left hk _⟩
    · rw [List.mem_singleton.mp hu]
      exact ⟨Nat.le_add_right .., by simp only [Window.rest]; omega⟩
  apart := by
    rw [List.pairwise_pair]
    exact Or.inl (le_refl _)
  places p hp := by
    by_cases hlt : p < w.lo + k
    · exact Or.inr ⟨_, List.mem_cons_self .., hp.1, hlt⟩
    · refine Or.inr ⟨_, List.mem_cons_of_mem _ (List.mem_singleton_self _), not_lt.mp hlt, ?_⟩
      have := hp.2
      simp only [Window.rest]
      omega
  lcps p hp := by
    -- only the entry between the two windows is left out
    rcases Nat.lt_trichotomy p (w.lo + k) with hlt | heq | hgt
    · exact Or.inr (Or.inl ⟨_, List.mem_cons_self .., hp.1, hlt⟩)
    · exact Or.inr (Or.inr heq)
    · refine Or.inr (Or.inl ⟨_, List.mem_cons_of_mem _ (List.mem_singleton_self _), hgt, ?_⟩)
      have := hp.2
      simp only [Window.rest]
      omega

/-- A window without places needs no work. -/
theorem SortTask.Covers.empty (hw : w.size = 0) : T.Covers g w [] fun _ => False :=
  .of_finished (fun p hp => by have := hp.1; have := hp.2; omega)
    fun p hp => by have := hp.1; have := hp.2; omega

theorem SortTask.Covers.imp {us : List Window} {promised promised' : ℕ → Prop}
    (h : T.Covers g w us promised) (himp : ∀ p, w.Interior p → promised p → promised' p) :
    T.Covers g w us promised' where
  inside := h.inside
  apart := h.apart
  places := h.places
  lcps p hp := (h.lcps p hp).imp_right (Or.imp_right (himp p hp))

end Tiles

/-! ## Keys of the target -/

section Keys

variable {S : Type} (T : SortTask S) {w : Window} {depth : ℕ}

/-- The key at a depth of the string that belongs to a place. -/
def SortTask.targetKey (depth p : ℕ) : KeyType := keyAt (T.target p) depth

variable {T}

/-- The keys of the target do not decrease. -/
theorem SortTask.DepthOk.targetKey_mono (h : T.DepthOk w depth) (hw : w.lo + w.size ≤ T.total) :
    MonotoneIn (T.targetKey depth) w.lo w.size := fun p q hp hq hpq =>
  keyAt_le_keyAt (T.noNul p) (T.noNul q) (h p q hp hq) (T.monotone hw p q hp hq hpq)

/-- Different keys give the common prefix at a boundary, and the character behind it. -/
theorem SortTask.DepthOk.boundary_lcp (h : T.DepthOk w depth) {p : ℕ} (hp : w.Interior p)
    (hne : T.targetKey depth (p - 1) ≠ T.targetKey depth p) :
    T.lcpAt p = depth + lcpKeyType (T.targetKey depth (p - 1)) (T.targetKey depth p) ∧
      (T.target p).getD (T.lcpAt p) 0 = getCharAtDepth (T.targetKey depth p)
        (lcpKeyType (T.targetKey depth (p - 1)) (T.targetKey depth p)) := by
  have hprev : w.Mem (p - 1) := by
    obtain ⟨h₁, h₂⟩ := hp
    exact ⟨by omega, by omega⟩
  obtain ⟨hlcp, hlt⟩ := lcpLen_of_keyAt_ne (T.noNul _) (T.noNul _) (h _ _ hprev hp.mem) hne
  rw [lcpAt, hlcp]
  exact ⟨rfl, (getCharAtDepth_keyAt _ _ hlt).symm⟩

/-- Strings with one key that goes on agree up to eight characters more. -/
theorem SortTask.DepthOk.deeper (h : T.DepthOk w depth) {k : KeyType}
    (hk : ∀ p, w.Mem p → T.targetKey depth p = k) (hlow : lowByte k ≠ 0) :
    T.DepthOk w (depth + 8) := fun p q hp hq =>
  .of_keyAt_eq (T.noNul p) (T.noNul q) (h p q hp hq) ((hk p hp).trans (hk q hq).symm)
    (by rw [show keyAt (T.target p) depth = k from hk p hp]; exact hlow)

/-- Strings with one key that contains the terminator are the same, and it gives their length. -/
theorem SortTask.DepthOk.const (h : T.DepthOk w depth) {k : KeyType}
    (hk : ∀ p, w.Mem p → T.targetKey depth p = k) (hlow : lowByte k = 0) (hlo : w.Mem w.lo) :
    (∀ p, w.Mem p → T.target p = T.target w.lo) ∧
      (T.target w.lo).length = depth + lcpKeyDepth k := by
  refine ⟨fun p hp => eq_of_keyAt_eq (T.noNul _) (T.noNul _) (h p _ hp hlo)
    ((hk p hp).trans (hk _ hlo).symm) ?_, ?_⟩
  · rw [show keyAt (T.target p) depth = k from hk p hp]
    exact hlow
  · -- a key with the terminator gives the length of its string
    have hkey : keyAt (T.target w.lo) depth = k := hk _ hlo
    rw [← hkey]
    exact length_of_lowByte_eq_zero (T.noNul _) (h.le_length hlo) (hkey ▸ hlow)

end Keys

/-! ## Entries -/

section Entries

variable {S : Type} {T : SortTask S} {g g' : Ghost S} {p : ℕ}

/-- The entry at place `p` has been written, and is right. -/
structure SortTask.EntryWritten (T : SortTask S) (p : ℕ) (g g' : Ghost S) : Prop where
  strings : g'.mem.strings = g.mem.strings
  value : g'.value = g.value
  lcps : ∀ q, q ≠ p → g'.mem.lcps q = g.mem.lcps q
  cache : ∀ q, q ≠ p → g'.mem.cache q = g.mem.cache q
  ok : T.LcpOk g' p

/-- `set_lcp` and `set_cache` write an entry. -/
theorem setEntry_written (T : SortTask S) (g : Ghost S) (f : Bool) (lo n i : ℕ) {v : ℕ}
    {c : CharType} (hv : T.lcpAt (lo + i) = v) (hc : (T.target (lo + i)).getD (T.lcpAt (lo + i)) 0 = c) :
    T.EntryWritten (lo + i) g ⟨T.cls.setCache (T.cls.pointer f lo n) i c
      (T.cls.setLcp (T.cls.pointer f lo n) i v g.mem), g.value⟩ := by
  -- a class without LCPs, or without a cache, writes nothing
  have hlcps : (T.cls.setCache (T.cls.pointer f lo n) i c
      (T.cls.setLcp (T.cls.pointer f lo n) i v g.mem)).lcps =
        if T.cls.withLcp then Function.update g.mem.lcps (lo + i) v else g.mem.lcps := by
    rw [StringPtrClass.setCache, StringPtrClass.setLcp]
    split_ifs <;> rfl
  have hcache : (T.cls.setCache (T.cls.pointer f lo n) i c
      (T.cls.setLcp (T.cls.pointer f lo n) i v g.mem)).cache =
        if T.cls.hasCache then Function.update g.mem.cache (lo + i) c else g.mem.cache := by
    rw [StringPtrClass.setCache, StringPtrClass.setLcp]
    split_ifs <;> rfl
  refine ⟨?_, rfl, fun q hq => ?_, fun q hq => ?_, fun hwith => ?_, fun hwith => ?_⟩
  · rw [StringPtrClass.setCache, StringPtrClass.setLcp]
    split_ifs <;> rfl
  · rw [hlcps]
    split
    · exact Function.update_of_ne hq ..
    · rfl
  · rw [hcache]
    split
    · exact Function.update_of_ne hq ..
    · rfl
  · rw [hlcps, if_pos hwith, Function.update_self, hv]
  · rw [hcache, if_pos hwith, Function.update_self, hc]

namespace SortTask.EntryWritten

/-- An entry is no string. -/
theorem effect (h : T.EntryWritten p g g') {w : Window} (hp : w.Interior p) : Effect w g g' where
  strings arr q _ := by rw [h.strings]
  value q _ := by rw [h.value]
  perm := by rw [h.value]
  lcps q hq := h.lcps q fun heq => hq (heq ▸ hp)
  cache q hq := h.cache q fun heq => hq (heq ▸ hp)

theorem agree (h : T.EntryWritten p g g') {w : Window} (hp : ¬ w.Interior p) : Agree w g g' where
  strings arr q _ := by rw [h.strings]
  value q _ := by rw [h.value]
  lcps q hq := h.lcps q fun heq => hp (heq ▸ hq)
  cache q hq := h.cache q fun heq => hp (heq ▸ hq)

/-- The entry need not be promised any more. -/
theorem covers (h : T.EntryWritten p g g') {w : Window} {us : List Window} {promised : ℕ → Prop}
    (hc : T.Covers g w us promised) : T.Covers g' w us fun q => promised q ∧ q ≠ p := by
  refine hc.calculate h.strings h.value (fun q _ hok => ?_) fun q _ hq => ?_
  · by_cases hqp : q = p
    · exact hqp ▸ h.ok
    · exact hok.congr (h.lcps q hqp) (h.cache q hqp)
  · by_cases hqp : q = p
    · exact Or.inr (hqp ▸ h.ok)
    · exact Or.inl ⟨hq, hqp⟩

end SortTask.EntryWritten

end Entries

/-! ## Pieces -/

section Pieces

variable {S : Type} {T : SortTask S} {g : Ghost S} {P : Piece}

/-- The key of the string at a place. -/
def SortTask.valueKey (T : SortTask S) (g : Ghost S) (depth p : ℕ) : KeyType :=
  keyAt (T.ss.chars (g.value p)) depth

/-- The key that the code reads from a string of a piece. -/
theorem SortTask.PieceOk.getUint64_eq (h : T.PieceOk g P) {p : ℕ} (hp : P.window.Mem p) :
    getUint64 T.ss (g.value p) P.depth = T.valueKey g P.depth p := by
  refine T.sortable.key_eq _ _ ?_
  rw [← T.ss.length_chars]
  exact (h.sharePrefix hp hp).right

/-- The strings of a piece share its depth. -/
theorem SortTask.PieceOk.sharesDepth (h : T.PieceOk g P) :
    SharesDepth T.ss.chars ((T.pointer P).active.get g.mem) P.window.size P.depth := by
  intro p hp q hq
  have hin : ∀ i < P.window.size, P.window.Mem (P.window.lo + i) := fun i hi =>
    ⟨Nat.le_add_right .., Nat.add_lt_add_left hi _⟩
  obtain ⟨q', hq', heq⟩ := h.exists_target (hin p hp)
  have hshare := h.sharePrefix (hin q hq) hq'
  rw [← heq, h.value _ (hin p hp), h.value _ (hin q hq)] at hshare
  exact hshare

/-- The strings of a piece are rearranged in its array, or in the other one. -/
theorem SortTask.PieceOk.rearrange (h : T.PieceOk g P) (f : Bool) {B : ℕ → S}
    (hB : Rearranges g P B) :
    let g' := g.rearranged
      (g.mem.write ⟨T.cls.activeArray f, P.window.lo, P.window.size⟩ B) P.window B
    Effect P.window g g' ∧ T.PieceOk g' { P with flipped := f } := by
  refine ⟨⟨fun arr p hp => Memory.write_strings_outside _ _ _ _ hp,
    fun p hp => splice_of_not_in _ _ hp, Ghost.rearranged_perm _ hB, fun _ _ => rfl,
    fun _ _ => rfl⟩, ⟨h.pos, h.bound, fun p hp => ?_, Ghost.rearranged_chars_perm _ h hB, h.depth⟩⟩
  rw [Ghost.rearranged_value _ _ _ hp]
  show _ = (g.mem.write ⟨T.cls.activeArray f, P.window.lo, P.window.size⟩ B).strings
    (T.cls.activeArray f) p
  rw [Memory.write_strings_self, splice_of_in _ _ hp]

/-- The strings of the target are those of the piece. -/
theorem SortTask.PieceOk.exists_value (h : T.PieceOk g P) {q : ℕ} (hq : P.window.Mem q) :
    ∃ p, P.window.Mem p ∧ T.ss.chars (g.value p) = T.target q := by
  have hmem : T.target q ∈ slice (T.ss.chars ∘ g.value) P.window.lo P.window.size :=
    h.perm.mem_iff.mpr (mem_slice.mpr ⟨q, hq, rfl⟩)
  exact mem_slice.mp hmem

/-- The largest key of a piece is that of the last string of the target. -/
theorem SortTask.PieceOk.last_key (h : T.PieceOk g P) {k : KeyType}
    (hle : ∀ p, P.window.Mem p → T.valueKey g P.depth p ≤ k)
    (hex : ∃ p, P.window.Mem p ∧ T.valueKey g P.depth p = k) :
    T.targetKey P.depth (P.window.lo + P.window.size - 1) = k := by
  have hpos := h.pos
  have hlast : P.window.Mem (P.window.lo + P.window.size - 1) := ⟨by omega, by omega⟩
  refine le_antisymm ?_ ?_
  · -- the last string of the target is one of the strings of the piece
    obtain ⟨p, hp, heq⟩ := h.exists_value hlast
    rw [targetKey, ← heq]
    exact hle p hp
  · -- and the string with the largest key has a place in the target
    obtain ⟨p, hp, rfl⟩ := hex
    obtain ⟨q, hq, heq⟩ := h.exists_target hp
    rw [valueKey, heq]
    exact h.depth.targetKey_mono h.bound q _ hq hlast (by have := hq.2; omega)

/-- The smallest key of a piece is that of the first string of the target. -/
theorem SortTask.PieceOk.first_key (h : T.PieceOk g P) {k : KeyType}
    (hle : ∀ p, P.window.Mem p → k ≤ T.valueKey g P.depth p)
    (hex : ∃ p, P.window.Mem p ∧ T.valueKey g P.depth p = k) :
    T.targetKey P.depth P.window.lo = k := by
  refine le_antisymm ?_ ?_
  · obtain ⟨p, hp, rfl⟩ := hex
    obtain ⟨q, hq, heq⟩ := h.exists_target hp
    rw [valueKey, heq]
    exact h.depth.targetKey_mono h.bound _ q h.mem_lo hq hq.1
  · obtain ⟨p, hp, heq⟩ := h.exists_value h.mem_lo
    rw [targetKey, ← heq]
    exact hle p hp

section Class

variable {ι : Type} [LinearOrder ι] {f : KeyType → ι}

/-- A piece that is arranged by a monotone function of the keys has the values of the target. -/
theorem SortTask.PieceOk.class_eq (h : T.PieceOk g P) (hf : Monotone f)
    (hmono : MonotoneIn (f ∘ T.valueKey g P.depth) P.window.lo P.window.size) {p : ℕ}
    (hp : P.window.Mem p) : f (T.valueKey g P.depth p) = f (T.targetKey P.depth p) :=
  Slice.class_eq (fun x => f (keyAt x P.depth)) h.perm hmono
    (fun p q hp hq hpq => hf (h.depth.targetKey_mono h.bound p q hp hq hpq)) hp

/-- The strings of a class are a piece. -/
theorem SortTask.PieceOk.sub_class (h : T.PieceOk g P) (hf : Monotone f)
    (hmono : MonotoneIn (f ∘ T.valueKey g P.depth) P.window.lo P.window.size) {u : Window}
    (hu : u.Inside P.window) (hpos : 0 < u.size) {k : ι}
    (hclass : ∀ p, P.window.Mem p → (f (T.targetKey P.depth p) = k ↔ u.Mem p)) {d : ℕ}
    (hd : T.DepthOk u d) : T.PieceOk g ⟨P.flipped, u, d⟩ where
  pos := hpos
  bound := hu.2.trans h.bound
  value p hp := h.value p (hu.mem hp)
  perm := perm_class (fun x => f (keyAt x P.depth)) h.perm hmono
    (fun p q hp hq hpq => hf (h.depth.targetKey_mono h.bound p q hp hq hpq)) hu.1 hu.2
    fun p hp => by
      have hc := hclass p hp
      -- the classes of the piece and of the target are at the same places
      rw [← h.class_eq hf hmono hp] at hc
      exact hc
  depth := hd

end Class

end Pieces

end StringSampleSort
