import Win98Modern.NativeWin98.PersistentDisk
import Win98Modern.Lib.Chain

/-!
# FAT32 volumes

What a volume says about its directories and files, apart from any program that reads it: the chain
of clusters that the FAT gives for a first cluster, the entries of a directory, the directories
(`Volume.Dir`) and the extents of a map of sectors (`Contiguous`, `mapped`).
-/

namespace Win98Modern.NativeWin98

open List Option

structure Volume where
  geo : Geometry
  content : Nat → Sector

namespace Volume

variable {v : Volume}

def next (v : Volume) (n : Nat) : Nat :=
  u32 (v.content (v.geo.reserved + n / 128)) (n % 128 * 4) &&& 0x0fffffff

def succ (v : Volume) (n : Nat) : Option Nat := if Eoc (v.next n) then none else some (v.next n)

/-- The chain of clusters from `n` on. -/
def FatChain (v : Volume) (n : Nat) (l : List Nat) : Prop := ∃ t, l = n :: t ∧ Chain id v.succ n t

variable {n : Nat} {l : List Nat} {xs : List (Nat × Nat)}

theorem FatChain.unique {l' : List Nat} (h : v.FatChain n l) (h' : v.FatChain n l') : l = l' := by
  obtain ⟨t, rfl, ht⟩ := h
  obtain ⟨t', rfl, ht'⟩ := h'
  rw [ht.unique ht']

def sectors (v : Volume) (l : List Nat) : List Nat :=
  l.flatMap fun n => List.range' (v.geo.clusterLba n) v.geo.spc

/-- The places for directory entries in clusters: a sector, and a place in it. -/
def places (v : Volume) (l : List Nat) : List (Nat × Nat) :=
  (v.sectors l).flatMap fun lba => (List.range 16).map fun k => (lba, k)

def entryAt (v : Volume) (a : Nat × Nat) : Sector := slot (v.content a.1) a.2

/-- The places before the one that ends the directory. -/
def live (v : Volume) (places : List (Nat × Nat)) : List (Nat × Nat) :=
  places.takeWhile fun a => v.entryAt a 0 ≠ 0

/-- The places of the entries of a directory with the clusters `l`. -/
def entries (v : Volume) (l : List Nat) : List (Nat × Nat) := v.live (v.places l)

/-- An entry that is not deleted, no link of the directory itself, and no volume label. -/
def IsObject (p : Sector) : Prop := p 0 ≠ 0xe5 ∧ ¬IsDot p ∧ ¬IsDotDot p ∧ attrOf p &&& 8 = 0

def IsSubdir (p : Sector) : Prop := IsObject p ∧ attrOf p &&& 16 ≠ 0

def IsFile (p : Sector) : Prop := IsObject p ∧ attrOf p &&& 16 = 0

/-- The subdirectory is `SHZDOS` in the root directory. -/
def isShzdos (v : Volume) (dir : Nat) (p : Sector) : Bool := dir = v.geo.root ∧ equalName p "SHZDOS     "

/-- The directories, by their first clusters; the flag is set for `SHZDOS`. -/
inductive Dir (v : Volume) : Nat → Bool → Prop
  | root : Dir v v.geo.root false
  | sub {dir : Nat} {shzdos : Bool} {l : List Nat} {a : Nat × Nat} (hdir : Dir v dir shzdos)
      (hchain : v.FatChain dir l) (hentry : a ∈ v.entries l) (hsub : IsSubdir (v.entryAt a)) :
      Dir v (firstOf (v.entryAt a)) (v.isShzdos dir (v.entryAt a))

theorem live_append_of_end {ys : List (Nat × Nat)} (h : ∃ a ∈ xs, v.entryAt a 0 = 0) :
    v.live (xs ++ ys) = v.live xs := by
  induction xs with
  | nil => obtain ⟨a, ha, -⟩ := h; cases ha
  | cons x xs ih =>
    unfold live at *
    rw [cons_append, takeWhile_cons, takeWhile_cons]
    by_cases hx : v.entryAt x 0 = 0
    · rw [if_neg (by simpa using hx), if_neg (by simpa using hx)]
    · obtain ⟨a, ha, h0⟩ := h
      have hxs : a ∈ xs := (mem_cons.1 ha).resolve_left fun he => hx (he ▸ h0)
      rw [if_pos (by simpa using hx), if_pos (by simpa using hx), ih ⟨a, hxs, h0⟩]

theorem live_of_no_end (h : ¬∃ a ∈ xs, v.entryAt a 0 = 0) : v.live xs = xs := by
  have hall : v.live (xs ++ []) = xs ++ v.live [] :=
    takeWhile_append_of_pos fun a ha => by simpa using fun h0 => h ⟨a, ha, h0⟩
  rwa [append_nil, show v.live [] = [] from rfl, append_nil] at hall

theorem sectors_cons (n : Nat) (l : List Nat) :
    v.sectors (n :: l) = List.range' (v.geo.clusterLba n) v.geo.spc ++ v.sectors l := rfl

theorem length_sectors (l : List Nat) : (v.sectors l).length = l.length * v.geo.spc := by
  induction l with
  | nil => exact (Nat.zero_mul _).symm
  | cons n l ih =>
    rw [sectors_cons, length_append, length_range', ih, length_cons, Nat.succ_mul,
      Nat.add_comm]

theorem mem_sectors {lba : Nat} :
    lba ∈ v.sectors l ↔ ∃ n ∈ l, ∃ s < v.geo.spc, lba = v.geo.clusterLba n + s := by
  unfold sectors
  rw [mem_flatMap]
  constructor
  · rintro ⟨n, hn, hlba⟩
    obtain ⟨hlo, hhi⟩ := mem_range'_1.1 hlba
    exact ⟨n, hn, lba - v.geo.clusterLba n, by omega, by omega⟩
  · rintro ⟨n, hn, s, hs, rfl⟩
    exact ⟨n, hn, mem_range'_1.2 ⟨by omega, by omega⟩⟩

theorem clusterLba_inj {g : Geometry} {n' s s' : Nat} (hn : ValidCluster g n)
    (hn' : ValidCluster g n') (hs : s < g.spc) (hs' : s' < g.spc)
    (h : g.clusterLba n + s = g.clusterLba n' + s') : n = n' ∧ s = s' := by
  unfold Geometry.clusterLba at h
  have hspc : 0 < g.spc := Nat.lt_of_le_of_lt (Nat.zero_le _) hs
  have hdiv : n - 2 = n' - 2 := by
    have h' : s + g.spc * (n - 2) = s' + g.spc * (n' - 2) := by
      rw [Nat.mul_comm g.spc, Nat.mul_comm g.spc]
      omega
    have hd := congrArg (· / g.spc) h'
    simp only [Nat.add_mul_div_left _ _ hspc, Nat.div_eq_of_lt hs, Nat.div_eq_of_lt hs'] at hd
    omega
  rw [hdiv] at h
  have := hn.1
  have := hn'.1
  omega

theorem nodup_sectors (hl : l.Nodup) (hvalid : ∀ n ∈ l, ValidCluster v.geo n) :
    (v.sectors l).Nodup := by
  induction l with
  | nil => exact nodup_nil
  | cons n l ih =>
    rw [sectors_cons, nodup_append]
    refine ⟨nodup_range', ih (nodup_cons.1 hl).2 fun x hx =>
      hvalid x (mem_cons_of_mem _ hx), ?_⟩
    rintro lba hlba _ hmem rfl
    obtain ⟨x, hx, s, hs, he⟩ := mem_sectors.1 hmem
    obtain ⟨hlo, hhi⟩ := mem_range'_1.1 hlba
    have hinj := clusterLba_inj (hvalid n mem_cons_self)
      (hvalid x (mem_cons_of_mem _ hx)) (by omega : lba - v.geo.clusterLba n < v.geo.spc) hs
      (by omega)
    exact (nodup_cons.1 hl).1 (hinj.1 ▸ hx)

theorem FatChain.nodup (h : v.FatChain n l) : l.Nodup := by
  obtain ⟨t, rfl, ht⟩ := h
  induction t generalizing n with
  | nil => exact nodup_singleton n
  | cons x t ih =>
    refine nodup_cons.2 ⟨fun hn => ?_, ih ht.2⟩
    -- a chain that came back to its first cluster would be as long as its own end
    obtain ⟨pre, post, hsplit⟩ := append_of_mem hn
    have hback : Chain id v.succ n post := by
      have hfull : Chain id v.succ n ((pre ++ [n]) ++ post) := by
        rw [append_assoc]
        show Chain id v.succ n (pre ++ n :: post)
        rw [← hsplit]
        exact ht
      have hdrop := hfull.drop
      rw [lastSlot_eq, List.getLast?_concat] at hdrop
      exact hdrop
    have hlen : (x :: t).length = post.length := congrArg List.length (ht.unique hback)
    have hlen' : (x :: t).length = pre.length + (post.length + 1) := by
      rw [hsplit, length_append, length_cons]
    omega

end Volume

/-! ### Extents -/

/-- The extents follow each other from `k` on. -/
def Contiguous : Nat → List Extent → Prop
  | _, [] => True
  | k, x :: xs => x.first = k ∧ 0 < x.count ∧ Contiguous (k + x.count) xs

def mapped (xs : List Extent) : List Nat := xs.flatMap fun x => List.range' x.deviceLba x.count

theorem mapped_cons (x : Extent) (xs : List Extent) :
    mapped (x :: xs) = List.range' x.deviceLba x.count ++ mapped xs := rfl

theorem mapped_append (xs ys : List Extent) : mapped (xs ++ ys) = mapped xs ++ mapped ys :=
  flatMap_append

theorem mapped_singleton (x : Extent) : mapped [x] = List.range' x.deviceLba x.count :=
  append_nil _

variable {k s i : Nat} {xs : List Extent} {x : Extent}

theorem contiguous_append {ys : List Extent} :
    Contiguous k (xs ++ ys) ↔ Contiguous k xs ∧ Contiguous (k + (mapped xs).length) ys := by
  induction xs generalizing k with
  | nil => exact ⟨fun h => ⟨trivial, h⟩, fun h => h.2⟩
  | cons x xs ih =>
    rw [cons_append, Contiguous, Contiguous, ih, mapped_cons, length_append,
      length_range', Nat.add_assoc, and_assoc, and_assoc]

theorem mapped_get (h : Contiguous k xs) (hk : k ≤ s) (hs : s < k + (mapped xs).length) :
    ∃ (i : Nat) (x : Extent), xs[i]? = some x ∧ x.first ≤ s ∧ s < x.first + x.count ∧
      (mapped xs)[s - k]? = some (x.deviceLba + (s - x.first)) := by
  induction xs generalizing k with
  | nil => exact absurd hs (Nat.not_lt.2 hk)
  | cons x xs ih =>
    obtain ⟨hfirst, hcount, hrest⟩ := h
    rw [mapped_cons, length_append, length_range'] at hs
    by_cases hin : s < k + x.count
    · refine ⟨0, x, rfl, by omega, by omega, ?_⟩
      rw [mapped_cons, List.getElem?_append_left (by rw [length_range']; omega),
        List.getElem?_range' (by omega), hfirst, Nat.one_mul]
    · obtain ⟨i, y, hy, hlo, hhi, hget⟩ := ih hrest (by omega) (by omega)
      refine ⟨i + 1, y, hy, hlo, hhi, ?_⟩
      rw [mapped_cons, List.getElem?_append_right (by rw [length_range']; omega),
        length_range', Nat.sub_sub]
      exact hget

theorem contiguous_le {j : Nat} {y : Extent} (h : Contiguous k xs) (hi : xs[i]? = some x)
    (hj : xs[j]? = some y) (hij : i < j) : x.first + x.count ≤ y.first := by
  induction xs generalizing k i j with
  | nil => cases hi
  | cons z xs ih =>
    obtain ⟨hfirst, -, hrest⟩ := h
    cases j with
    | zero => exact absurd hij (Nat.not_lt_zero i)
    | succ j =>
      cases i with
      | succ i => exact ih hrest hi hj (Nat.lt_of_succ_lt_succ hij)
      | zero =>
        obtain rfl := some.inj hi
        rw [hfirst]
        exact le_first hrest hj
where
  le_first {xs : List Extent} {k j : Nat} {y : Extent} (h : Contiguous k xs) (hj : xs[j]? = some y) :
      k ≤ y.first := by
    induction xs generalizing k j with
    | nil => cases hj
    | cons z xs ih =>
      cases j with
      | zero => exact some.inj hj ▸ h.1.ge
      | succ j => exact Nat.le_trans (Nat.le_add_right _ _) (ih h.2.2 hj)

/-- **The binary search finds the extent of a sector.** -/
theorem locate_eq (h : Contiguous 0 xs) (hx : xs[i]? = some x) (hlo : x.first ≤ s)
    (hhi : s < x.first + x.count) :
    ∀ fuel lo hi : Nat, hi - lo < fuel → lo ≤ i → i < hi → hi ≤ xs.length →
      locate xs s fuel lo hi = some (x.deviceLba + (s - x.first)) := by
  intro fuel
  induction fuel with
  | zero => exact fun lo hi hf => absurd hf (Nat.not_lt_zero _)
  | succ fuel ih =>
    intro lo hi hf hli hih hlen
    have hlt : lo < hi := Nat.lt_of_le_of_lt hli hih
    generalize hmid : lo + (hi - lo) / 2 = mid
    obtain ⟨y, hy⟩ : ∃ y, xs[mid]? = some y :=
      ⟨_, List.getElem?_eq_getElem (show mid < xs.length by omega)⟩
    unfold locate
    rw [if_pos hlt]
    simp only [hmid, hy]
    by_cases hbefore : s < y.first
    · rw [if_pos hbefore]
      refine ih lo mid (by omega) hli ?_ (by omega)
      by_contra hge
      obtain rfl | hlt' := Nat.eq_or_lt_of_le (Nat.not_lt.1 hge)
      · rw [hx] at hy
        obtain rfl := some.inj hy
        omega
      · have := contiguous_le h hy hx hlt'
        omega
    · rw [if_neg hbefore]
      by_cases hafter : y.count ≤ s - y.first
      · rw [if_pos hafter]
        refine ih (mid + 1) hi (by omega) ?_ hih hlen
        by_contra hge
        obtain rfl | hlt' := Nat.eq_or_lt_of_le (Nat.le_of_lt_succ (Nat.not_le.1 hge))
        · rw [hx] at hy
          obtain rfl := some.inj hy
          omega
        · have := contiguous_le h hx hy hlt'
          omega
      · rw [if_neg hafter]
        have hsame : i = mid := by
          by_contra hne
          obtain hlt' | hlt' := Nat.lt_or_gt_of_ne hne
          · have := contiguous_le h hx hy hlt'
            omega
          · have := contiguous_le h hy hx hlt'
            omega
        rw [hsame, hy] at hx
        obtain rfl := some.inj hx
        congr 1
        omega

end Win98Modern.NativeWin98
