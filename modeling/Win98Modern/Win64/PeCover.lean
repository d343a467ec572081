import Mathlib.Data.List.Pairwise
import Win98Modern.Win64.PeSafe

/-!
# The validation covers what the loader maps

`Covered f o` is what the loader relies on: the sections it maps are apart, behind the headers and inside
the image (`SectionsApart`), the bytes behind an address are in the file, what it stores to is in the image
(`StoresInside`) and every walk ends without reading outside the file (`WalksEnd`).  `pe_parse` reserves one
unit of the alignment for a section without a virtual size, where `map_module` maps its data; `Roomy` says
that this makes no difference, and `parse_covers` that an accepted file is covered exactly then.
-/

namespace Win98Modern.Pe

open List

open Reading Failing

def SectionsApart (f : Bytes) (o : Info) : Prop :=
  ∃ headers es, mapModule f o = .ok (headers, es) ∧ es.Pairwise Extent.Disjoint ∧
    ∀ e ∈ es, headers.stop ≤ e.start ∧ e.stop ≤ o.sizeOfImage

/-- `p` is where `page` maps a byte of the image. -/
def InImage (o : Info) (page : Nat → Option Nat) (p : Nat) : Prop :=
  ∃ rva < o.sizeOfImage, (page (ApplyCtx.pageOf rva)).map (· + rva % 4096) = some p

def Store.Inside (base size : Nat) (st : Store) : Prop := base ≤ st.va ∧ st.va + st.len ≤ base + size

structure StoresInside (f : Bytes) (o : Info) : Prop where
  relocs : ∀ delta page mem, ∀ p ∈ (applyRelocs f o delta page mem).1.stores, InImage o page p
  imports : ∀ (ω : Type) (resolve : ω → Import → ω × Option Nat) (poke : ω → Nat → Nat → ω × Bool) (base : Nat)
    (w : ω), ∀ st ∈ (walkImports f o (importCb resolve poke base) (w, [])).1.2, st.Inside base o.sizeOfImage
  config : ∀ c, loadConfig f o = .ok (some c) → ∀ env base, ∀ st ∈ (applyLoadConfig env o base c).1,
    st.Inside base o.sizeOfImage

structure WalksEnd (f : Bytes) (o : Info) : Prop where
  imports : ∀ (σ : Type) (fn : σ → Import → σ × Int) s, Clean (walkImports f o fn s).2
  delayImports : ∀ (σ : Type) (fn : σ → DelayDesc × Import → σ × Int) s, Clean (walkDelayImports f o fn s).2
  exports : ∀ w cap, Clean (findExport f o w cap)
  relocs : ∀ (σ : Type) (fn : σ → Fixup → σ × Int) s, Clean (walkRelocs f o fn s).2
  apply : ∀ delta page mem, Clean (applyRelocs f o delta page mem).2
  config : Clean (loadConfig f o)

structure Covered (f : Bytes) (o : Info) : Prop where
  sections : SectionsApart f o
  offsets : ∀ rva sp, rvaToOffset f o rva = .ok sp → sp.off + sp.avail ≤ f.size
  stores : StoresInside f o
  walks : WalksEnd f o

/-- The data of a section without a virtual size, rounded up to pages, fit before the next section that is
mapped and before the end of the image; a file that is mapped flat needs no room. -/
def Roomy (f : Bytes) (o : Info) : Prop :=
  o.lowAlignment = false → ∀ i s, getSection f o i = .ok s → s.vsize = 0 → s.rawSize ≠ 0 →
    s.rva + pages s.rawSize ≤ o.sizeOfImage ∧
      ∀ j t, getSection f o j = .ok t → mappedSize t ≠ 0 → s.rva < t.rva → s.rva + pages s.rawSize ≤ t.rva

/-! ### The sections -/

theorem le_pages (n : Nat) : n ≤ pages n := by
  rw [pages]
  omega

theorem pages_le {n m : Nat} (h : n ≤ m) (hd : 4096 ∣ m) : pages n ≤ m := by
  rw [pages]
  omega

variable {v a : Nat}

theorem page_dvd (h : pow2 v) (hv : 4096 ≤ v) : 4096 ∣ v := by
  obtain ⟨k, rfl⟩ := Nat.ne_zero_and_sub_one_eq_zero_iff_isPowerOfTwo.1 h
  have hk : 12 ≤ k := (Nat.pow_le_pow_iff_right (by omega : 1 < 2)).1 hv
  exact Nat.pow_dvd_pow 2 hk

theorem alignUp_eq (hv : v ≤ 2 ^ 30) (ha : a ≤ 2 ^ 30) : alignUp v a = (v + a - 1) / a * a := by
  have := Nat.div_mul_le_self (v + a - 1) a
  exact Nat.mod_eq_of_lt (by omega)

theorem le_alignUp (ha : 0 < a) (hv : v ≤ 2 ^ 30) (ha' : a ≤ 2 ^ 30) : v ≤ alignUp v a := by
  rw [alignUp_eq hv ha']
  have := Nat.lt_div_mul_add (a := v + a - 1) ha
  omega

theorem dvd_alignUp (hv : v ≤ 2 ^ 30) (ha : a ≤ 2 ^ 30) : a ∣ alignUp v a := by
  rw [alignUp_eq hv ha]
  exact Nat.dvd_mul_left _ _

instance : Std.Symm Extent.Disjoint := ⟨fun _ _ h => h.symm⟩

/-- The extent `map_module` gives a section. -/
def extent (s : Section) : Extent := ⟨s.rva, s.rva + mappedSize s⟩

section

variable {f : Bytes} {o : Info} (hc : Checked f o)

include hc

theorem Checked.alignment_le : o.sectionAlignment ≤ 2 ^ 30 :=
  (Nat.le_of_dvd (Nat.pos_of_ne_zero hc.image_pos) hc.whole).trans hc.image_le

theorem sectionExtents_spec (n i : Nat) (hi : i + n ≤ o.nsections) : ∃ es, sectionExtents f o n i = .ok es ∧
    (∀ e, e ∈ es ↔ ∃ j, i ≤ j ∧ j < i + n ∧ mappedSize (sectionAt f o j) ≠ 0 ∧ e = extent (sectionAt f o j)) ∧
      ((∀ j k, i ≤ j → j < k → k < i + n → mappedSize (sectionAt f o j) ≠ 0 → mappedSize (sectionAt f o k) ≠ 0 →
        (extent (sectionAt f o j)).Disjoint (extent (sectionAt f o k))) → es.Pairwise Extent.Disjoint) := by
  induction n generalizing i with
  | zero => exact ⟨[], rfl, fun e => ⟨nofun, fun ⟨_, _, _, _⟩ => by omega⟩, fun _ => List.Pairwise.nil⟩
  | succ n ih =>
    obtain ⟨es, hes, hmem, hdis⟩ := ih (i + 1) (by omega)
    have hrun : sectionExtents f o (n + 1) i = .ok (if mappedSize (sectionAt f o i) = 0 then es else
        extent (sectionAt f o i) :: es) := by
      rw [sectionExtents, hc.getSection (by omega : i < o.nsections), hes]
      rfl
    refine ⟨_, hrun, ?_⟩
    by_cases hempty : mappedSize (sectionAt f o i) = 0
    · rw [if_pos hempty]
      refine ⟨fun e => (hmem e).trans ⟨fun ⟨j, hj, hjn, h⟩ => ⟨j, by omega, by omega, h⟩, ?_⟩, fun h => hdis ?_⟩
      · rintro ⟨j, hj, hjn, hne, he⟩
        have : j ≠ i := fun hji => hne (hji ▸ hempty)
        exact ⟨j, by omega, by omega, hne, he⟩
      · exact fun j k hj hjk hk => h j k (by omega) hjk (by omega)
    · rw [if_neg hempty]
      refine ⟨fun e => ?_, fun h => pairwise_cons.2 ⟨fun e he => ?_, hdis ?_⟩⟩
      · rw [mem_cons, hmem]
        constructor
        · rintro (rfl | ⟨j, hj, hjn, hne⟩)
          · exact ⟨i, Nat.le_refl i, by omega, hempty, rfl⟩
          · exact ⟨j, by omega, by omega, hne⟩
        · rintro ⟨j, hj, hjn, hne, rfl⟩
          rcases Nat.eq_or_lt_of_le hj with rfl | hlt
          · exact .inl rfl
          · exact .inr ⟨j, hlt, by omega, hne, rfl⟩
      · obtain ⟨k, hk, hkn, hne, rfl⟩ := (hmem e).1 he
        exact h i k (Nat.le_refl i) (by omega) (by omega) hempty hne
      · exact fun j k hj hjk hk => h j k (by omega) hjk (by omega)

/-- A section whose room is below another section ends before it, if its data fit. -/
theorem stop_le_of_reserved (hpage : 4096 ∣ o.sectionAlignment) {i j : Nat} (hi : i < o.nsections)
    (hroom : (sectionAt f o i).vsize = 0 → (sectionAt f o i).rawSize ≠ 0 →
      (sectionAt f o i).rva < (sectionAt f o j).rva →
        (sectionAt f o i).rva + pages (sectionAt f o i).rawSize ≤ (sectionAt f o j).rva)
    (hne : mappedSize (sectionAt f o i) ≠ 0)
    (hapart : (sectionAt f o i).rva + reserved o (sectionAt f o i) ≤ (sectionAt f o j).rva) :
    (extent (sectionAt f o i)).stop ≤ (extent (sectionAt f o j)).start := by
  have hs := hc.sections i hi
  have halign := hc.alignment
  by_cases hv : (sectionAt f o i).vsize = 0
  · have hraw : (sectionAt f o i).rawSize ≠ 0 := fun h0 => hne (by simp [mappedSize, hv, h0, pages])
    simp only [reserved, hv, ne_eq, not_true, if_false] at hapart
    have hend := hroom hv hraw (by omega)
    simpa [extent, mappedSize, hv] using hend
  · have hin := hs.inside
    simp only [ne_eq, hv, not_false_eq_true, if_true] at hin
    have hle : (sectionAt f o i).vsize ≤ 2 ^ 30 := by
      have := hc.image_le
      omega
    have hres : reserved o (sectionAt f o i) = alignUp (sectionAt f o i).vsize o.sectionAlignment := if_pos hv
    have hfit : pages (sectionAt f o i).vsize ≤ reserved o (sectionAt f o i) := by
      rw [hres]
      exact pages_le (le_alignUp (by omega) hle hc.alignment_le)
        (hpage.trans (dvd_alignUp hle hc.alignment_le))
    have hsize : mappedSize (sectionAt f o i) = pages (sectionAt f o i).vsize := by simp [mappedSize, hv]
    simp only [extent, hsize]
    omega

theorem sections_apart_of_roomy (h : Roomy f o) : SectionsApart f o := by
  by_cases hlow : o.lowAlignment = true
  · exact ⟨_, [], by rw [mapModule, if_pos hlow]; rfl, List.Pairwise.nil, nofun⟩
  have hroomy := h (by simpa using hlow)
  have hpage : 4096 ∣ o.sectionAlignment := by
    refine page_dvd hc.pow2 ?_
    have := hc.low
    simp only [this, decide_eq_true_eq] at hlow
    omega
  have hfree : ∀ i j, i < o.nsections → j < o.nsections → mappedSize (sectionAt f o j) ≠ 0 →
      (sectionAt f o i).vsize = 0 → (sectionAt f o i).rawSize ≠ 0 →
        (sectionAt f o i).rva < (sectionAt f o j).rva →
          (sectionAt f o i).rva + pages (sectionAt f o i).rawSize ≤ (sectionAt f o j).rva :=
    fun i j hi hj hne hv hraw => (hroomy i _ (hc.getSection hi) hv hraw).2 j _ (hc.getSection hj) hne
  obtain ⟨es, hes, hmem, hdis⟩ := sectionExtents_spec hc o.nsections 0 (by omega)
  refine ⟨⟨0, pages o.sizeOfHeaders⟩, es, ?_, hdis ?_, fun e he => ?_⟩
  · rw [mapModule, if_neg hlow, hes]
    rfl
  · intro j k _ hjk hk hj' hk'
    rcases hc.apart k (by omega) j hjk with hjk' | hkj'
    · exact .inl (stop_le_of_reserved hc hpage (by omega)
        (hfree j k (by omega) (by omega) hk') hj' hjk')
    · exact .inr (stop_le_of_reserved hc hpage (by omega)
        (hfree k j (by omega) (by omega) hj') hk' hkj')
  · obtain ⟨j, _, hj, hne, rfl⟩ := (hmem e).1 he
    have hj : j < o.nsections := by omega
    have hs := hc.sections j hj
    have hbound := hc.image_le
    have hhead := hc.headers_image
    constructor
    · refine (pages_le (le_alignUp ?_ (hhead.trans hbound) hc.alignment_le) ?_).trans hs.after_headers
      · have := hc.alignment
        omega
      · exact hpage.trans (dvd_alignUp (hhead.trans hbound) hc.alignment_le)
    · by_cases hv : (sectionAt f o j).vsize = 0
      · have hraw : (sectionAt f o j).rawSize ≠ 0 := fun h0 => hne (by simp [mappedSize, hv, h0, pages])
        have hend := (hroomy j _ (hc.getSection hj) hv hraw).1
        simpa [extent, mappedSize, hv] using hend
      · have hin := hs.inside
        simp only [ne_eq, hv, not_false_eq_true, if_true] at hin
        have hdvd : 4096 ∣ o.sizeOfImage - (sectionAt f o j).rva :=
          Nat.dvd_sub (hpage.trans hc.whole) (hpage.trans hs.aligned)
        have hfit := pages_le (by omega : (sectionAt f o j).vsize ≤ o.sizeOfImage - (sectionAt f o j).rva) hdvd
        have hsize : mappedSize (sectionAt f o j) = pages (sectionAt f o j).vsize := by simp [mappedSize, hv]
        simp only [extent, hsize]
        omega

theorem roomy_of_sections_apart (h : SectionsApart f o) : Roomy f o := by
  intro hlow i s hs hv hraw
  obtain ⟨hi, rfl⟩ := getSection_eq_ok hs
  obtain ⟨headers, es, hmap, hdis, hin⟩ := h
  obtain ⟨es', hes, hmem, -⟩ := sectionExtents_spec hc o.nsections 0 (by omega)
  rw [mapModule, hlow, if_neg (by decide), hes] at hmap
  cases hmap
  have hsize : mappedSize (sectionAt f o i) = pages (sectionAt f o i).rawSize := by simp [mappedSize, hv]
  have hpos := le_pages (sectionAt f o i).rawSize
  have hmemi : extent (sectionAt f o i) ∈ es :=
    (hmem _).2 ⟨i, by omega, by omega, by omega, rfl⟩
  refine ⟨?_, fun j t ht hne hlt => ?_⟩
  · have := (hin _ hmemi).2
    simp only [extent, hsize] at this
    exact this
  · obtain ⟨hj, rfl⟩ := getSection_eq_ok ht
    have hmemj : extent (sectionAt f o j) ∈ es := (hmem _).2 ⟨j, by omega, by omega, hne, rfl⟩
    have hne' : extent (sectionAt f o i) ≠ extent (sectionAt f o j) := by
      intro he
      have := congrArg Extent.start he
      simp only [extent] at this
      omega
    have hboth := hdis.forall hmemi hmemj hne'
    simp only [Extent.Disjoint, extent, hsize] at hboth
    omega

/-! ### Base relocations -/

end

namespace ApplyCtx

/-- The cached pages are where the image is mapped, and only bytes of the image have been stored to. -/
structure Cached (o : Info) (page : Nat → Option Nat) (a : ApplyCtx) : Prop where
  cur : ∀ p, a.cur = some p → page a.curRva = some p
  next : ∀ p, a.next = some p → page a.nextRva = some p
  stores : ∀ p ∈ a.stores, InImage o page p

variable {o : Info} {page : Nat → Option Nat} {a : ApplyCtx}

theorem cached_start (mem : Nat → UInt8) : Cached o page (start mem) := ⟨nofun, nofun, nofun⟩

theorem cached_turnTo (h : Cached o page a) (rva : Nat) : Cached o page (turnTo page a rva) := by
  rw [turnTo]
  split
  · exact h
  · exact ⟨fun p hp => hp, h.next, h.stores⟩

theorem fixByte_spec (h : Cached o page a) (rva : Nat) : Cached o page (fixByte page a rva).1 ∧
    ∀ p, (fixByte page a rva).2 = some p → (page (pageOf rva)).map (· + rva % 4096) = some p := by
  rw [fixByte]
  split
  · rename_i q hq
    split at hq
    · rename_i hpg
      refine ⟨h, fun p hp => ?_⟩
      rw [hpg, h.cur q hq]
      exact hp
    · cases hq
  · split
    · rename_i q hq
      split at hq
      · rename_i hpg
        refine ⟨h, fun p hp => ?_⟩
        rw [← hpg, h.next q hq]
        exact hp
      · cases hq
    · exact ⟨⟨h.cur, fun p hp => hp, h.stores⟩, fun p hp => hp⟩

theorem fixBytes_spec (hsize : o.sizeOfImage ≤ 2 ^ 30) (width : Nat) : ∀ {a : ApplyCtx} {rva : Nat},
    Cached o page a → rva + width ≤ o.sizeOfImage → Cached o page (fixBytes page a rva width).1 ∧
      ∀ ps, (fixBytes page a rva width).2 = some ps → ∀ p ∈ ps, InImage o page p := by
  induction width with
  | zero =>
    intro a rva h _
    refine ⟨h, fun ps hps => ?_⟩
    cases hps
    exact nofun
  | succ width ih =>
    intro a rva h hin
    have hu : u32 (rva + 1) = rva + 1 := Nat.mod_eq_of_lt (by omega)
    obtain ⟨hcached, hat⟩ := fixByte_spec h rva
    rw [fixBytes]
    rcases hbyte : fixByte page a rva with ⟨b, _ | p⟩ <;> rw [hbyte] at hcached hat
    · exact ⟨hcached, nofun⟩
    have hnext : rva + 1 + width ≤ o.sizeOfImage := by omega
    obtain ⟨hrest, hall⟩ := ih hcached hnext
    simp only [hu]
    rcases hbytes : fixBytes page b (rva + 1) width with ⟨c, _ | ps⟩ <;> rw [hbytes] at hrest hall
    · exact ⟨hrest, nofun⟩
    refine ⟨hrest, fun qs hqs => ?_⟩
    cases hqs
    intro q hq
    rcases mem_cons.1 hq with rfl | hq
    · exact ⟨rva, by omega, hat q rfl⟩
    · exact hall ps rfl q hq

theorem store_cached (ps : List Nat) : ∀ {a : ApplyCtx} {v : Nat}, Cached o page a →
    (∀ p ∈ ps, InImage o page p) → Cached o page (a.store ps v) := by
  induction ps with
  | nil => exact fun h _ => h
  | cons p ps ih =>
    intro a v h hps
    refine ih ⟨h.cur, h.next, fun q hq => ?_⟩ fun q hq => hps q (mem_cons_of_mem p hq)
    rcases mem_cons.1 hq with rfl | hq
    · exact hps q mem_cons_self
    · exact h.stores q hq

theorem cached_failed (h : Cached o page a) : Cached o page { a with failed := true } := ⟨h.cur, h.next, h.stores⟩

theorem cached_applied {n : Nat} (h : Cached o page a) : Cached o page { a with applied := n } :=
  ⟨h.cur, h.next, h.stores⟩

theorem applyOne_cached (hsize : o.sizeOfImage ≤ 2 ^ 30) (delta : Nat) (h : Cached o page a) (x : Fixup)
    (hin : x.rva + relocWidth x.type ≤ o.sizeOfImage) : Cached o page (applyOne page delta a x).1 := by
  have hturn := cached_turnTo h x.rva
  obtain ⟨hfix, hps⟩ := fixBytes_spec hsize _ hturn hin
  rw [applyOne]
  split
  · exact cached_failed hturn
  rcases hbytes : fixBytes page (turnTo page a x.rva) x.rva (relocWidth x.type) with ⟨b, _ | ps⟩ <;>
    rw [hbytes] at hfix hps
  · exact cached_failed hfix
  simp only
  split
  · exact hfix
  · exact cached_applied (store_cached ps hfix (hps ps rfl))

end ApplyCtx

section

variable {f : Bytes} {o : Info} (hc : Checked f o)

include hc

theorem keeps_applyRelocs (delta : Nat) (page : Nat → Option Nat) :
    Keeps (ApplyCtx.Cached o page) (walkRelocs f o (ApplyCtx.applyOne page delta)) :=
  keeps_walkRelocs hc fun _ x hs hin => ApplyCtx.applyOne_cached hc.image_le delta hs x hin

theorem clean_applyRelocs (delta : Nat) (page : Nat → Option Nat) (mem : Nat → UInt8) :
    Clean (applyRelocs f o delta page mem).2 := by
  obtain ⟨-, hclean⟩ := keeps_applyRelocs hc delta page _ (ApplyCtx.cached_start mem)
  exact (hclean.recode _).bind fun _ _ => clean_refuse

/-! ### The load configuration -/

variable {c : LoadConfig} {env : ConfigEnv} {base size : Nat}

omit hc in
theorem loadConfig_slots (h : loadConfig f o = .ok (some c)) :
    ∀ slot ∈ c.slots, slot ≠ 0 → o.imageBase ≤ slot ∧ slot - o.imageBase + 8 ≤ o.sizeOfImage := by
  rw [loadConfig] at h
  split at h
  · cases h
  simp only [bind_eq_ok, refuse_eq_ok] at h
  obtain ⟨_, -, _, -, _, -, _, -, _, -, _, hslots, _, -, h⟩ := h
  cases h
  intro slot hslot hne
  have hout : ¬slotOutside o slot := fun hout => hslots ⟨slot, hslot, hout⟩
  simp only [slotOutside, not_and, not_or, not_lt] at hout
  omega

omit hc in
theorem pokeSlots_inside {pref : Nat} {w : List (Nat × Nat)}
    (hw : ∀ x ∈ w, x.1 ≠ 0 → pref ≤ x.1 ∧ x.1 - pref + 8 ≤ size) :
    ∀ st ∈ (pokeSlots env base pref w).1, st.Inside base size := by
  induction w with
  | nil => exact nofun
  | cons x w ih =>
    obtain ⟨slot, fn⟩ := x
    have hrest := ih fun y hy => hw y (mem_cons_of_mem _ hy)
    rw [pokeSlots]
    split
    · rename_i hne
      have hslot : Store.Inside base size ⟨base + (slot - pref), 8⟩ := by
        have := (hw _ mem_cons_self hne.1).2
        simp only [Store.Inside]
        omega
      split
      · exact forall_mem_cons.2 ⟨hslot, hrest⟩
      · exact forall_mem_cons.2 ⟨hslot, nofun⟩
    · exact hrest

omit hc in
theorem cookieStore_inside {va : Nat} (h : Store.Inside base size ⟨va, 8⟩) :
    ∀ st ∈ (cookieStore env va).1, st.Inside base size := by
  rw [cookieStore]
  split
  · exact nofun
  · simp only
    split
    · exact forall_mem_cons.2 ⟨h, nofun⟩
    · exact nofun

omit hc in
theorem applyLoadConfig_inside (h : loadConfig f o = .ok (some c)) (env : ConfigEnv) (base : Nat) :
    ∀ st ∈ (applyLoadConfig env o base c).1, st.Inside base o.sizeOfImage := by
  have hslots := loadConfig_slots h
  have hcookie : ∀ st ∈ (if c.securityCookie ≠ 0 ∧ c.guardFlags / 0x800 % 2 = 0 then
      cookieStore env (base + (c.securityCookie - o.imageBase)) else ([], 0)).1, st.Inside base o.sizeOfImage := by
    split
    · rename_i hne
      have := hslots c.securityCookie (by simp [LoadConfig.slots]) hne.1
      refine cookieStore_inside ?_
      simp only [Store.Inside]
      omega
    · exact nofun
  have hguard : ∀ st ∈ (pokeSlots env base o.imageBase (guardSlots env c)).1, st.Inside base o.sizeOfImage := by
    refine pokeSlots_inside fun x hx hne => hslots x.1 ?_ hne
    simp only [guardSlots, mem_cons, not_mem_nil, or_false] at hx
    rcases hx with rfl | rfl | rfl | rfl | rfl <;> simp [LoadConfig.slots]
  rw [applyLoadConfig]
  split
  rename_i ws st hws
  rw [hws] at hcookie
  split
  · exact hcookie
  split
  · intro x hx
    rcases mem_append.1 hx with hx | hx
    · exact hcookie x hx
    · exact hguard x hx
  · exact hcookie

/-! ### The whole -/

theorem stores_inside : StoresInside f o where
  relocs delta page mem := (keeps_applyRelocs hc delta page _ (ApplyCtx.cached_start mem)).1.stores
  imports ω resolve poke base w := by
    have hkeeps : Keeps (fun s : ω × List Store => ∀ st ∈ s.2, st.Inside base o.sizeOfImage)
        (walkImports f o (importCb resolve poke base)) := by
      refine keeps_walkImports hc fun s x hs hslot => ?_
      have hstore : Store.Inside base o.sizeOfImage ⟨base + x.slot, 8⟩ := by
        simp only [Store.Inside]
        omega
      rw [importCb]
      split
      · exact hs
      · split
        · exact forall_mem_cons.2 ⟨hstore, hs⟩
        · exact forall_mem_cons.2 ⟨hstore, hs⟩
    exact (hkeeps (w, []) nofun).1
  config _ h env base := applyLoadConfig_inside h env base

theorem walks_end : WalksEnd f o where
  imports _ _ s := (keeps_walkImports (P := fun _ => True) hc (fun _ _ _ _ => trivial) s trivial).2
  delayImports _ _ s := (keeps_walkDelayImports (P := fun _ => True) hc (fun _ _ _ => trivial) s trivial).2
  exports := clean_findExport hc
  relocs _ _ s := (keeps_walkRelocs (P := fun _ => True) hc (fun _ _ _ _ => trivial) s trivial).2
  apply := clean_applyRelocs hc
  config := clean_loadConfig hc

end

/-- **Validation covers what the loader maps**, exactly for the images whose sections without a virtual size
have room for their data. -/
theorem parse_covers (f : Bytes) (o : Info) (h : peParse f = .ok o) : Covered f o ↔ Roomy f o := by
  have hc := peParse_checked h
  refine ⟨fun hcov => roomy_of_sections_apart hc hcov.sections, fun hroomy => ?_⟩
  exact ⟨sections_apart_of_roomy hc hroomy, fun _ _ => rvaToOffset_inside hc, stores_inside hc, walks_end hc⟩

/-- **Every accepted file** can be walked: no walk leaves the file or goes on for ever, and nothing outside
the image is stored to. -/
theorem accepted_walks {f : Bytes} {o : Info} (h : peParse f = .ok o) : StoresInside f o ∧ WalksEnd f o ∧
    ∀ rva sp, rvaToOffset f o rva = .ok sp → sp.off + sp.avail ≤ f.size :=
  have hc := peParse_checked h
  ⟨stores_inside hc, walks_end hc, fun _ _ => rvaToOffset_inside hc⟩

/-! ### Two images -/

/-- The bytes of an image with two sections a page apart: the first has no virtual size and `raw` bytes of
data, the second has sixteen bytes and no data. -/
def headers (raw : Nat) : List UInt8 :=
  let le (n v : Nat) : List UInt8 := (List.range n).map fun k => UInt8.ofNat (v / 256 ^ k)
  let zeros (n : Nat) : List UInt8 := List.replicate n 0
  [0x4d, 0x5a] ++ zeros 58 ++ le 4 64 ++
    [0x50, 0x45, 0, 0] ++ le 2 0x8664 ++ le 2 2 ++ zeros 12 ++ le 2 112 ++ le 2 2 ++
    le 2 0x20b ++ zeros 30 ++ le 4 4096 ++ le 4 512 ++ zeros 16 ++ le 4 12288 ++ le 4 512 ++ zeros 48 ++
    zeros 8 ++ le 4 0 ++ le 4 4096 ++ le 4 raw ++ le 4 512 ++ zeros 16 ++
    zeros 8 ++ le 4 16 ++ le 4 8192 ++ le 4 0 ++ le 4 0 ++ zeros 16

def image (raw : Nat) : Bytes := ⟨512 + raw, fun p => (headers raw).getD p 0⟩

def imageInfo : Info where
  imageBase := 0
  stackReserve := 0
  stackCommit := 0
  heapReserve := 0
  heapCommit := 0
  sizeOfImage := 12288
  sizeOfHeaders := 512
  sectionAlignment := 4096
  fileAlignment := 512
  entryRva := 0
  checksum := 0
  characteristics := 2
  dllCharacteristics := 0
  subsystem := 0
  nsections := 2
  majorOs := 0
  minorOs := 0
  dirs := []
  ntOffset := 64
  sectionTableOffset := 200
  lowAlignment := false

theorem roomy_image : Roomy (image 512) imageInfo := by
  intro _ i s hs hv hraw
  obtain ⟨hi, rfl⟩ := getSection_eq_ok hs
  have hi' : i = 0 ∨ i = 1 := by
    have : i < 2 := hi
    omega
  rcases hi' with rfl | rfl
  · refine ⟨by decide +kernel, fun j t ht hne hlt => ?_⟩
    obtain ⟨hj, rfl⟩ := getSection_eq_ok ht
    have hj' : j = 0 ∨ j = 1 := by
      have : j < 2 := hj
      omega
    rcases hj' with rfl | rfl
    · exact absurd hlt (Nat.lt_irrefl _)
    · decide +kernel
  · exact absurd hv (by decide +kernel)

theorem parse_covers_sample : Covered (image 512) imageInfo :=
  (parse_covers (image 512) imageInfo (by decide +kernel)).2 roomy_image

theorem accepted_walks_overlap : StoresInside (image 8192) imageInfo ∧ WalksEnd (image 8192) imageInfo :=
  have h := accepted_walks (show peParse (image 8192) = .ok imageInfo by decide +kernel)
  ⟨h.1, h.2.1⟩

/-- Two pages of data are mapped for the first section, over the second one. -/
theorem parse_overlaps : peParse (image 8192) = .ok imageInfo ∧
    mapModule (image 8192) imageInfo = .ok (⟨0, 4096⟩, [⟨4096, 12288⟩, ⟨8192, 12288⟩]) ∧
      ¬Covered (image 8192) imageInfo := by
  obtain ⟨hparse, hmap⟩ : peParse (image 8192) = .ok imageInfo ∧
      mapModule (image 8192) imageInfo = .ok (⟨0, 4096⟩, [⟨4096, 12288⟩, ⟨8192, 12288⟩]) := by decide +kernel
  refine ⟨hparse, hmap, fun hcov => ?_⟩
  obtain ⟨_, es, hes, hdis, -⟩ := hcov.sections
  rw [hmap] at hes
  cases hes
  have hboth := (pairwise_cons.1 hdis).1 ⟨8192, 12288⟩ mem_cons_self
  simp [Extent.Disjoint] at hboth

end Win98Modern.Pe
