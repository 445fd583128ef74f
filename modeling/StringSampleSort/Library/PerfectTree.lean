import Mathlib.Data.List.Basic
import Mathlib.Data.Nat.Factorization.Basic
import Mathlib.Order.Basic
import Mathlib.Tactic.Ring

/-!
# Perfect binary trees in level order

A perfect binary search tree stored in an array: node `i` has the children `2 * i` and
`2 * i + 1`.  The library relates array indices, positions in the sorted order of the keys,
and the two usual ways to search such a tree.

## Main results

- `inorder_split`: where the subtree of a node lies in the in-order listing
- `searchTree_iff`: a search tree lists its keys in sorted order
- `inorder_of_layout`: the listing of a tree that is filled level by level
- `preorder_perm`: a preorder walk meets each node once
- `descend_eq`: a branch-free descent counts the keys to the left
- `locate_found`, `locate_missed`: a descent that stops at the key
-/

namespace StringSampleSort.Library

variable {α : Type*}

/-! ## Listing a subtree -/

/-- The keys of the subtree with `r` levels below node `i`, from left to right. -/
def inorder (tree : ℕ → α) : ℕ → ℕ → List α
  | 0, _ => []
  | r + 1, i => inorder tree r (2 * i) ++ tree i :: inorder tree r (2 * i + 1)

/-- Node `j` lies in the subtree with `r` levels below node `i`. -/
def InSubtree (r i j : ℕ) : Prop := ∃ d < r, j / 2 ^ d = i

theorem length_inorder (tree : ℕ → α) (r i : ℕ) : (inorder tree r i).length = 2 ^ r - 1 := by
  induction r generalizing i with
  | zero => rfl
  | succ r ih =>
    have hpos := Nat.two_pow_pos r
    rw [inorder, List.length_append, List.length_cons, ih, ih, pow_succ]
    omega

theorem inSubtree_succ (r i j : ℕ) :
    InSubtree (r + 1) i j ↔ j = i ∨ InSubtree r (2 * i) j ∨ InSubtree r (2 * i + 1) j := by
  constructor
  · rintro ⟨d, hd, hj⟩
    cases d with
    | zero => exact Or.inl (by simpa using hj)
    | succ d =>
      -- the ancestor one level below `i` is one of its children
      rw [pow_succ, ← Nat.div_div_eq_div_mul] at hj
      have hchild : j / 2 ^ d = 2 * i ∨ j / 2 ^ d = 2 * i + 1 := by omega
      exact Or.inr (hchild.imp (fun h => ⟨d, by omega, h⟩) fun h => ⟨d, by omega, h⟩)
  · have hup : ∀ d c, c / 2 = i → j / 2 ^ d = c → j / 2 ^ (d + 1) = i := by
      intro d c hc hj
      rw [pow_succ, ← Nat.div_div_eq_div_mul, hj, hc]
    rintro (rfl | ⟨d, hd, hj⟩ | ⟨d, hd, hj⟩)
    · exact ⟨0, by omega, by simp⟩
    · exact ⟨d + 1, by omega, hup d _ (by omega) hj⟩
    · exact ⟨d + 1, by omega, hup d _ (by omega) hj⟩

theorem le_of_inSubtree {r i j : ℕ} (h : InSubtree r i j) : i ≤ j := by
  obtain ⟨d, -, rfl⟩ := h
  exact Nat.div_le_self j (2 ^ d)

/-- Subtrees of siblings share no node. -/
theorem not_inSubtree_sibling {r r' i j : ℕ} (hi : 1 ≤ i) (h : InSubtree r (2 * i) j) :
    ¬ InSubtree r' (2 * i + 1) j := by
  rintro ⟨d', -, hd'⟩
  obtain ⟨d, -, hd⟩ := h
  -- the upper one of both would be an ancestor of the lower one
  rcases Nat.lt_trichotomy d d' with hlt | rfl | hlt
  · obtain ⟨k, rfl⟩ : ∃ k, d' = d + (k + 1) := ⟨d' - d - 1, by omega⟩
    rw [pow_add, ← Nat.div_div_eq_div_mul, hd, pow_succ', ← Nat.div_div_eq_div_mul] at hd'
    have := Nat.div_le_self (2 * i / 2) (2 ^ k)
    omega
  · omega
  · obtain ⟨k, rfl⟩ : ∃ k, d = d' + (k + 1) := ⟨d - d' - 1, by omega⟩
    rw [pow_add, ← Nat.div_div_eq_div_mul, hd', pow_succ', ← Nat.div_div_eq_div_mul] at hd
    have := Nat.div_le_self ((2 * i + 1) / 2) (2 ^ k)
    omega

/-- The whole tree has the nodes below `2 ^ t`. -/
theorem inSubtree_root_iff (t j : ℕ) : InSubtree t 1 j ↔ 1 ≤ j ∧ j < 2 ^ t := by
  constructor
  · rintro ⟨d, hd, hj⟩
    have hlt : j < 2 ^ (d + 1) := by
      have := Nat.lt_div_mul_add (a := j) (Nat.two_pow_pos d)
      rw [hj] at this
      rw [pow_succ]
      omega
    refine ⟨?_, hlt.trans_le (Nat.pow_le_pow_right (by omega) hd)⟩
    by_contra hlt0
    rw [show j = 0 by omega, Nat.zero_div] at hj
    omega
  · rintro ⟨h1, h2⟩
    have hj : j ≠ 0 := by omega
    refine ⟨j.log2, (Nat.log2_lt hj).mpr h2, ?_⟩
    refine Nat.div_eq_of_lt_le ?_ ?_
    · rw [one_mul]
      exact Nat.log2_self_le hj
    · have := Nat.lt_log2_self (n := j)
      rw [pow_succ] at this
      omega

theorem mem_inorder_iff (tree : ℕ → α) (r i : ℕ) (x : α) :
    x ∈ inorder tree r i ↔ ∃ j, InSubtree r i j ∧ tree j = x := by
  induction r generalizing i with
  | zero => simp [inorder, InSubtree]
  | succ r ih =>
    rw [inorder, List.mem_append, List.mem_cons, ih, ih]
    simp only [inSubtree_succ]
    constructor
    · rintro (⟨j, hj, rfl⟩ | rfl | ⟨j, hj, rfl⟩)
      · exact ⟨j, Or.inr (Or.inl hj), rfl⟩
      · exact ⟨i, Or.inl rfl, rfl⟩
      · exact ⟨j, Or.inr (Or.inr hj), rfl⟩
    · rintro ⟨j, rfl | hj | hj, rfl⟩
      · exact Or.inr (Or.inl rfl)
      · exact Or.inl ⟨j, hj, rfl⟩
      · exact Or.inr (Or.inr ⟨j, hj, rfl⟩)

/-- Below node `i` lie `r` levels of a search tree: no key of a left subtree is above, and none of a
right subtree is below the key between them. -/
def SearchTree [LE α] (tree : ℕ → α) : ℕ → ℕ → Prop
  | 0, _ => True
  | r + 1, i =>
    (∀ j, InSubtree r (2 * i) j → tree j ≤ tree i) ∧
      (∀ j, InSubtree r (2 * i + 1) j → tree i ≤ tree j) ∧
      SearchTree tree r (2 * i) ∧ SearchTree tree r (2 * i + 1)

/-- A search tree lists its keys in sorted order. -/
theorem searchTree_iff [Preorder α] (tree : ℕ → α) (r i : ℕ) :
    SearchTree tree r i ↔ (inorder tree r i).Pairwise (· ≤ ·) := by
  induction r generalizing i with
  | zero => simp [SearchTree, inorder]
  | succ r ih =>
    have hleft : (∀ j, InSubtree r (2 * i) j → tree j ≤ tree i) ↔
        ∀ a ∈ inorder tree r (2 * i), a ≤ tree i := by simp [mem_inorder_iff]
    have hright : (∀ j, InSubtree r (2 * i + 1) j → tree i ≤ tree j) ↔
        ∀ b ∈ inorder tree r (2 * i + 1), tree i ≤ b := by simp [mem_inorder_iff]
    rw [SearchTree, inorder, List.pairwise_append, List.pairwise_cons, hleft, hright, ih, ih]
    constructor
    · rintro ⟨hl, hr, hsl, hsr⟩
      refine ⟨hsl, ⟨hr, hsr⟩, fun a ha b hb => ?_⟩
      rcases List.mem_cons.mp hb with rfl | hb
      · exact hl a ha
      · exact (hl a ha).trans (hr b hb)
    · rintro ⟨hsl, ⟨hr, hsr⟩, hcross⟩
      exact ⟨fun a ha => hcross a ha _ (List.mem_cons_self ..), hr, hsl, hsr⟩

/-- Only the nodes of the subtree matter for its listing. -/
theorem inorder_congr {tree tree' : ℕ → α} {r i : ℕ}
    (h : ∀ j, InSubtree r i j → tree j = tree' j) : inorder tree r i = inorder tree' r i := by
  induction r generalizing i with
  | zero => rfl
  | succ r ih =>
    rw [inorder, inorder, h i ((inSubtree_succ ..).mpr (Or.inl rfl)),
      ih fun j hj => h j ((inSubtree_succ ..).mpr (Or.inr (Or.inl hj))),
      ih fun j hj => h j ((inSubtree_succ ..).mpr (Or.inr (Or.inr hj)))]

/-- The subtree of the node reached after `d` steps down, the `x`-th one of its level, lies
behind `x * 2 ^ (r - d)` keys. -/
theorem inorder_split (tree : ℕ → α) {r d x : ℕ} (i : ℕ) (hd : d ≤ r) (hx : x < 2 ^ d) :
    ∃ A B, A.length = x * 2 ^ (r - d) ∧
      inorder tree r i = A ++ inorder tree (r - d) (i * 2 ^ d + x) ++ B := by
  induction d generalizing r i x with
  | zero =>
    have hx0 : x = 0 := by simpa using hx
    subst hx0
    exact ⟨[], [], by simp, by simp⟩
  | succ d ih =>
    obtain ⟨r, rfl⟩ : ∃ r', r = r' + 1 := ⟨r - 1, by omega⟩
    rw [show r + 1 - (d + 1) = r - d by omega, inorder]
    rcases Nat.lt_or_ge x (2 ^ d) with hlt | hge
    · -- the first step goes to the left child
      obtain ⟨A, B, hA, hsplit⟩ := ih (2 * i) (by omega : d ≤ r) hlt
      refine ⟨A, B ++ tree i :: inorder tree r (2 * i + 1), hA, ?_⟩
      rw [hsplit, show i * 2 ^ (d + 1) + x = 2 * i * 2 ^ d + x by ring]
      simp
    · obtain ⟨A, B, hA, hsplit⟩ := ih (x := x - 2 ^ d) (2 * i + 1) (by omega : d ≤ r)
        (by rw [pow_succ] at hx; omega)
      refine ⟨inorder tree r (2 * i) ++ tree i :: A, B, ?_, ?_⟩
      · have hpow : 2 ^ d * 2 ^ (r - d) = 2 ^ r := by
          rw [← pow_add]
          congr 1
          omega
        have hpos := Nat.two_pow_pos r
        rw [List.length_append, List.length_cons, length_inorder, hA, Nat.sub_mul, hpow]
        have : 2 ^ r ≤ x * 2 ^ (r - d) := hpow ▸ Nat.mul_le_mul_right _ hge
        omega
      · rw [hsplit, show i * 2 ^ (d + 1) + x = (2 * i + 1) * 2 ^ d + (x - 2 ^ d) by
          rw [pow_succ]; ring_nf; omega]
        simp

/-- The key of a node by its position in the listing. -/
theorem getElem?_inorder (tree : ℕ → α) {r d x : ℕ} (i : ℕ) (hd : d < r) (hx : x < 2 ^ d) :
    (inorder tree r i)[(2 * x + 1) * 2 ^ (r - 1 - d) - 1]? = some (tree (i * 2 ^ d + x)) := by
  obtain ⟨A, B, hA, hsplit⟩ := inorder_split tree i hd.le hx
  obtain ⟨k, hk⟩ : ∃ k, r - d = k + 1 := ⟨r - d - 1, by omega⟩
  have hpos := Nat.two_pow_pos k
  rw [hk] at hA hsplit
  rw [hsplit, show r - 1 - d = k by omega, inorder]
  have hleft : (A ++ inorder tree k (2 * (i * 2 ^ d + x))).length =
      (2 * x + 1) * 2 ^ k - 1 := by
    rw [List.length_append, hA, length_inorder, pow_succ]
    ring_nf
    omega
  rw [show A ++ (inorder tree k (2 * (i * 2 ^ d + x)) ++ tree (i * 2 ^ d + x) ::
      inorder tree k (2 * (i * 2 ^ d + x) + 1)) ++ B =
      (A ++ inorder tree k (2 * (i * 2 ^ d + x))) ++ tree (i * 2 ^ d + x) ::
        (inorder tree k (2 * (i * 2 ^ d + x) + 1) ++ B) by simp, ← hleft,
    List.getElem?_append_right (le_refl _)]
  simp

/-- A tree whose node `x` of level `d` holds the key at its position of the listing. -/
theorem inorder_of_layout {tree f : ℕ → α} {r : ℕ}
    (h : ∀ d < r, ∀ x < 2 ^ d, tree (2 ^ d + x) = f ((2 * x + 1) * 2 ^ (r - 1 - d) - 1)) :
    inorder tree r 1 = (List.range (2 ^ r - 1)).map f := by
  refine List.ext_getElem? fun j => ?_
  rcases Nat.lt_or_ge j (2 ^ r - 1) with hj | hj
  · -- position `j` is that of a node: `j + 1` is an odd multiple of a power of two
    obtain ⟨k, m, ⟨x, hm⟩, hjk⟩ := Nat.exists_eq_two_pow_mul_odd (Nat.succ_ne_zero j)
    have hle : 2 ^ k < 2 ^ r := by
      have := Nat.le_mul_of_pos_right (2 ^ k) (by omega : 0 < m)
      omega
    have hk : k < r := (Nat.pow_lt_pow_iff_right (by norm_num)).mp hle
    have hx : x < 2 ^ (r - 1 - k) := by
      have hpow : 2 ^ r = 2 ^ k * (2 * 2 ^ (r - 1 - k)) := by
        rw [← pow_succ', ← pow_add]
        congr 1
        omega
      have hlt : 2 ^ k * m < 2 ^ k * (2 * 2 ^ (r - 1 - k)) := by omega
      have := Nat.lt_of_mul_lt_mul_left hlt
      omega
    have hpos : j = (2 * x + 1) * 2 ^ (r - 1 - (r - 1 - k)) - 1 := by
      rw [show r - 1 - (r - 1 - k) = k by omega, mul_comm, ← hm, ← hjk]
      rfl
    rw [hpos, getElem?_inorder tree 1 (by omega : r - 1 - k < r) hx, one_mul,
      h _ (by omega) x hx, ← hpos, List.getElem?_map, List.getElem?_range hj, Option.map_some]
  · rw [List.getElem?_eq_none (by rwa [length_inorder]), List.getElem?_eq_none (by simpa using hj)]

/-! ## Listing the nodes -/

/-- The nodes of the subtree with `r` levels below node `i`, each before its children. -/
def preorder : ℕ → ℕ → List ℕ
  | 0, _ => []
  | r + 1, i => i :: (preorder r (2 * i) ++ preorder r (2 * i + 1))

theorem mem_preorder_iff (r i j : ℕ) : j ∈ preorder r i ↔ InSubtree r i j := by
  induction r generalizing i with
  | zero => simp [preorder, InSubtree]
  | succ r ih => rw [preorder, List.mem_cons, List.mem_append, ih, ih, inSubtree_succ]

/-- No node is listed twice. -/
theorem nodup_preorder (r : ℕ) {i : ℕ} (hi : 1 ≤ i) : (preorder r i).Nodup := by
  induction r generalizing i with
  | zero => exact List.nodup_nil
  | succ r ih =>
    rw [preorder, List.nodup_cons, List.mem_append, mem_preorder_iff, mem_preorder_iff]
    refine ⟨fun h => ?_, List.Nodup.append (ih (by omega)) (ih (by omega)) fun j hj hj' => ?_⟩
    · rcases h with h | h <;> have := le_of_inSubtree h <;> omega
    · rw [mem_preorder_iff] at hj hj'
      exact not_inSubtree_sibling hi hj hj'

/-- The whole tree lists the numbers below `2 ^ t`. -/
theorem preorder_perm (t : ℕ) : (preorder t 1).Perm (List.range' 1 (2 ^ t - 1)) := by
  refine (List.perm_ext_iff_of_nodup (nodup_preorder t (le_refl 1)) List.nodup_range').mpr
    fun j => ?_
  rw [mem_preorder_iff, inSubtree_root_iff, List.mem_range'_1]
  have := Nat.two_pow_pos t
  omega

/-! ## Descending to the leaves -/

/-- Descent by `r` levels from node `i`, to the right where `right` holds of the key. -/
def descend (right : α → Bool) (tree : ℕ → α) : ℕ → ℕ → ℕ
  | 0, i => i
  | r + 1, i => descend right tree r (2 * i + if right (tree i) then 1 else 0)

/-- When the keys where the descent turns right come first, the leaf that it reaches counts
them. -/
theorem descend_eq {right : α → Bool} {tree : ℕ → α} {r i : ℕ}
    (h : (inorder tree r i).Pairwise fun a b => right b = true → right a = true) :
    descend right tree r i = i * 2 ^ r + (inorder tree r i).countP right := by
  induction r generalizing i with
  | zero => simp [descend, inorder]
  | succ r ih =>
    have hpos := Nat.two_pow_pos r
    rw [inorder, List.pairwise_append, List.pairwise_cons] at h
    obtain ⟨hleft, ⟨hroot, hright⟩, hcross⟩ := h
    rw [descend, inorder, List.countP_append, List.countP_cons]
    cases hi : right (tree i) with
    | true =>
      -- all keys of the left subtree count
      have hall : (inorder tree r (2 * i)).countP right = 2 ^ r - 1 := by
        rw [← length_inorder tree r (2 * i), List.countP_eq_length]
        exact fun a ha => hcross a ha _ (List.mem_cons_self ..) hi
      rw [if_pos rfl, ih hright, hall, pow_succ]
      ring_nf
      omega
    | false =>
      have hnone : (inorder tree r (2 * i + 1)).countP right = 0 := by
        rw [List.countP_eq_zero]
        intro a ha hra
        rw [hroot a ha hra] at hi
        exact absurd hi (by simp)
      rw [if_neg (by simp), Nat.add_zero, ih hleft, hnone, pow_succ]
      ring

/-! ## Descending to a key -/

section Locate

variable [LinearOrder α]

/-- Descent by `r` levels from node `i` that stops at a node with the key. -/
def locate (tree : ℕ → α) (key : α) : ℕ → ℕ → ℕ ⊕ ℕ
  | 0, i => .inr i
  | r + 1, i =>
    if key = tree i then .inl i
    else locate tree key r (2 * i + if key < tree i then 0 else 1)

/-- The node where the descent stops: it holds the key, no other node with the key comes
before it, and left of its subtree all keys are smaller. -/
theorem locate_found {tree : ℕ → α} {key : α} {r i m : ℕ}
    (h : (inorder tree r i).Pairwise (· ≤ ·)) (hm : locate tree key r i = .inl m) :
    tree m = key ∧ (∀ j, InSubtree r i j → tree j = key → m ≤ j) ∧
      ∃ d x, d < r ∧ x < 2 ^ d ∧ m = i * 2 ^ d + x ∧
        ∃ A B, A.length = x * 2 ^ (r - d) ∧
          inorder tree r i = A ++ inorder tree (r - d) m ++ B ∧ ∀ a ∈ A, a < key := by
  induction r generalizing i with
  | zero => simp [locate] at hm
  | succ r ih =>
    rw [inorder, List.pairwise_append, List.pairwise_cons] at h
    obtain ⟨hleft, ⟨hroot, hright⟩, hcross⟩ := h
    rw [locate] at hm
    by_cases hkey : key = tree i
    · rw [if_pos hkey, Sum.inl.injEq] at hm
      subst hm
      exact ⟨hkey.symm, fun j hj _ => le_of_inSubtree hj, 0, 0, by omega, by simp, by simp,
        [], [], by simp, by simp, by simp⟩
    · rw [if_neg hkey] at hm
      by_cases hlt : key < tree i
      · -- the key can only be in the left subtree
        rw [if_pos hlt, Nat.add_zero] at hm
        obtain ⟨h₁, h₂, d, x, hd, hx, hmx, A, B, hA, hsplit, hsmall⟩ := ih hleft hm
        refine ⟨h₁, fun j hj hjkey => ?_, d + 1, x, by omega, by rw [pow_succ]; omega,
          by rw [hmx]; ring, A, B ++ tree i :: inorder tree r (2 * i + 1), ?_, ?_, hsmall⟩
        · rcases (inSubtree_succ r i j).mp hj with rfl | hj | hj
          · exact absurd hjkey.symm hkey
          · exact h₂ j hj hjkey
          · have := hroot _ ((mem_inorder_iff tree r _ _).mpr ⟨j, hj, rfl⟩)
            rw [hjkey] at this
            exact absurd hlt (not_lt.mpr this)
        · rw [hA, show r + 1 - (d + 1) = r - d by omega]
        · rw [show r + 1 - (d + 1) = r - d by omega, inorder, hsplit]
          simp
      · rw [if_neg hlt] at hm
        have hgt : tree i < key := lt_of_le_of_ne (not_lt.mp hlt) (Ne.symm hkey)
        obtain ⟨h₁, h₂, d, x, hd, hx, hmx, A, B, hA, hsplit, hsmall⟩ := ih hright hm
        refine ⟨h₁, fun j hj hjkey => ?_, d + 1, 2 ^ d + x, by omega, by rw [pow_succ]; omega,
          by rw [hmx]; ring, inorder tree r (2 * i) ++ tree i :: A, B, ?_, ?_, ?_⟩
        · rcases (inSubtree_succ r i j).mp hj with rfl | hj | hj
          · exact absurd hjkey.symm hkey
          · have := hcross _ ((mem_inorder_iff tree r _ _).mpr ⟨j, hj, rfl⟩) _
              (List.mem_cons_self ..)
            rw [hjkey] at this
            exact absurd hgt (not_lt.mpr this)
          · exact h₂ j hj hjkey
        · have hpow : 2 ^ d * 2 ^ (r - d) = 2 ^ r := by
            rw [← pow_add]
            congr 1
            omega
          have hpos := Nat.two_pow_pos r
          rw [List.length_append, List.length_cons, length_inorder, hA,
            show r + 1 - (d + 1) = r - d by omega, Nat.add_mul, hpow]
          omega
        · rw [show r + 1 - (d + 1) = r - d by omega, inorder, hsplit]
          simp
        · intro a ha
          rcases List.mem_append.mp ha with ha | ha
          · exact (hcross a ha _ (List.mem_cons_self ..)).trans_lt hgt
          · rcases List.mem_cons.mp ha with rfl | ha
            · exact hgt
            · exact hsmall a ha

/-- A descent that meets no node with the key counts the smaller keys, and no node of the
subtree holds the key. -/
theorem locate_missed {tree : ℕ → α} {key : α} {r i e : ℕ}
    (h : (inorder tree r i).Pairwise (· ≤ ·)) (he : locate tree key r i = .inr e) :
    e = i * 2 ^ r + (inorder tree r i).countP (fun s => decide (s < key)) ∧
      key ∉ inorder tree r i := by
  induction r generalizing i with
  | zero =>
    rw [locate, Sum.inr.injEq] at he
    simp [inorder, he]
  | succ r ih =>
    have hpos := Nat.two_pow_pos r
    rw [inorder, List.pairwise_append, List.pairwise_cons] at h
    obtain ⟨hleft, ⟨hroot, hright⟩, hcross⟩ := h
    rw [locate] at he
    by_cases hkey : key = tree i
    · rw [if_pos hkey] at he
      exact absurd he (by simp)
    · rw [if_neg hkey] at he
      rw [inorder, List.countP_append, List.countP_cons, List.mem_append, List.mem_cons]
      by_cases hlt : key < tree i
      · rw [if_pos hlt, Nat.add_zero] at he
        obtain ⟨h₁, h₂⟩ := ih hleft he
        have hnone : (inorder tree r (2 * i + 1)).countP (fun s => decide (s < key)) = 0 := by
          rw [List.countP_eq_zero]
          intro a ha hlt'
          exact absurd ((hlt.trans_le (hroot a ha)).trans (of_decide_eq_true hlt')) (lt_irrefl _)
        refine ⟨?_, ?_⟩
        · rw [h₁, hnone, if_neg (by simpa using hlt.le), pow_succ]
          ring
        · rintro (hmem | hmem | hmem)
          · exact h₂ hmem
          · exact hkey hmem
          · exact absurd (hroot _ hmem) (not_le.mpr hlt)
      · rw [if_neg hlt] at he
        have hgt : tree i < key := lt_of_le_of_ne (not_lt.mp hlt) (Ne.symm hkey)
        obtain ⟨h₁, h₂⟩ := ih hright he
        have hall : (inorder tree r (2 * i)).countP (fun s => decide (s < key)) = 2 ^ r - 1 := by
          rw [← length_inorder tree r (2 * i), List.countP_eq_length]
          exact fun a ha => by
            simpa using (hcross a ha _ (List.mem_cons_self ..)).trans_lt hgt
        refine ⟨?_, ?_⟩
        · rw [h₁, hall, if_pos (by simpa using hgt), pow_succ]
          ring_nf
          omega
        · rintro (hmem | hmem | hmem)
          · exact absurd (hcross _ hmem _ (List.mem_cons_self ..)) (not_le.mpr hgt)
          · exact hkey hmem
          · exact h₂ hmem

end Locate

end StringSampleSort.Library
