import Mathlib.Tactic.Ring
import Win98Modern.Win64.PeLoad

/-!
# What pe_parse has checked

`Checked f o` gathers what holds of the file and of the headers when `peParse` returns `o`; the results on
the tables and on the layout start from it.
-/

namespace Win98Modern.Pe

open Reading

/-- The `i`-th section of the table. -/
def sectionAt (f : Bytes) (o : Info) (i : Nat) : Section := sectionEntry f (o.sectionTableOffset + i * 40)

structure SectionChecked (f : Bytes) (o : Info) (s : Section) : Prop where
  aligned : o.sectionAlignment ∣ s.rva
  after_headers : alignUp o.sizeOfHeaders o.sectionAlignment ≤ s.rva
  inside : s.rva + (if s.vsize ≠ 0 then s.vsize else 1) ≤ o.sizeOfImage
  data : s.rawSize ≠ 0 → s.rawOff + s.rawSize ≤ f.size

structure Checked (f : Bytes) (o : Info) : Prop where
  pow2 : pow2 o.sectionAlignment
  alignment : 512 ≤ o.sectionAlignment
  low : o.lowAlignment = decide (o.sectionAlignment < 4096)
  headers_file : o.sizeOfHeaders ≤ f.size
  headers_image : o.sizeOfHeaders ≤ o.sizeOfImage
  image_pos : o.sizeOfImage ≠ 0
  whole : o.sectionAlignment ∣ o.sizeOfImage
  image_le : o.sizeOfImage ≤ 2 ^ 30
  table : o.sectionTableOffset + o.nsections * 40 ≤ f.size
  sections : ∀ i < o.nsections, SectionChecked f o (sectionAt f o i)
  apart : ∀ i < o.nsections, ∀ j < i,
    (sectionAt f o j).rva + reserved o (sectionAt f o j) ≤ (sectionAt f o i).rva ∨
      (sectionAt f o i).rva + reserved o (sectionAt f o i) ≤ (sectionAt f o j).rva

variable {f : Bytes} {o : Info} {i : Nat}

theorem getSection_eq_ok {s : Section} (h : getSection f o i = .ok s) :
    i < o.nsections ∧ s = sectionAt f o i := by
  rw [getSection, bind_eq_ok] at h
  obtain ⟨_, hi, h⟩ := h
  rw [refuse_eq_ok] at hi
  simp only at h
  split at h
  · cases h
    exact ⟨by omega, rfl⟩
  · cases h

theorem getSection_of_lt (ht : o.sectionTableOffset + o.nsections * 40 ≤ f.size)
    (hi : i < o.nsections) : getSection f o i = .ok (sectionAt f o i) := by
  have hle : o.sectionTableOffset + i * 40 + 40 ≤ f.size := by omega
  have hr : refuse (o.nsections ≤ i) PE_E_SECTIONS = .ok () := refuse_eq_ok.2 (by omega)
  rw [getSection, hr]
  exact if_pos hle

/-! ### The headers -/

theorem readOptional_low {nt nsec characteristics optSize : Nat} {sec : Nat}
    (h : readOptional f nt nsec characteristics optSize = .ok (o, sec)) :
    o.lowAlignment = decide (o.sectionAlignment < 4096) ∧ o.sectionTableOffset = u32 sec := by
  simp only [readOptional, bind_eq_ok] at h
  iterate 21 obtain ⟨_, -, h⟩ := h
  cases h
  exact ⟨rfl, rfl⟩

theorem inRange.le {off len limit : Nat} (h : inRange off len limit) : off + len ≤ limit := by
  obtain ⟨_, _⟩ := h
  omega

theorem checkSection_checked (h : checkSection f o i = .ok ()) :
    SectionChecked f o (sectionAt f o i) ∧ ∀ j < i,
      (sectionAt f o j).rva + reserved o (sectionAt f o j) ≤ (sectionAt f o i).rva ∨
        (sectionAt f o i).rva + reserved o (sectionAt f o i) ≤ (sectionAt f o j).rva := by
  simp only [checkSection, bind_eq_ok, refuse_eq_ok, forM_eq_ok] at h
  obtain ⟨s, hs, _, hplace, _, hinside, _, _, _, hdata, _, _, _, _, happart⟩ := h
  obtain ⟨_, rfl⟩ := getSection_eq_ok hs
  rw [not_or, not_lt] at hplace
  refine ⟨⟨?_, hplace.2, (not_not.1 hinside).le, fun hraw => ?_⟩, fun j hj => ?_⟩
  · exact Nat.dvd_of_mod_eq_zero (not_not.1 hplace.1)
  · exact (not_not.1 fun hn => hdata ⟨hraw, hn⟩).le
  · obtain ⟨t, ht, hover⟩ := happart j (List.mem_range.2 hj)
    obtain ⟨_, rfl⟩ := getSection_eq_ok ht
    omega

theorem peParse_checked (h : peParse f = .ok o) : Checked f o := by
  simp only [peParse, bind_eq_ok, forM_eq_ok] at h
  iterate 15 obtain ⟨_, -, h⟩ := h
  obtain ⟨⟨o, sec⟩, hopt, _, hsizes, _, hsections, h⟩ := h
  iterate 3 obtain ⟨_, -, h⟩ := h
  dsimp only at h
  cases h
  obtain ⟨hlow, htable⟩ := readOptional_low hopt
  simp only [checkSizes, bind_eq_ok, refuse_eq_ok] at hsizes
  obtain ⟨_, halign, _, _, _, _, _, _, _, hsec, _, hheaders, _, hwhole, himage⟩ := hsizes
  have hsec := (not_not.1 hsec).le
  have hu : u32 sec ≤ sec := Nat.mod_le _ _
  simp only [not_or, not_not, not_lt] at halign hheaders
  exact {
    pow2 := halign.1
    alignment := by omega
    low := hlow
    headers_file := hheaders.2.1
    headers_image := hheaders.2.2.1
    image_pos := hheaders.2.2.2
    whole := Nat.dvd_of_mod_eq_zero (not_not.1 hwhole)
    image_le := by omega
    table := by rw [htable]; omega
    sections := fun i hi => (checkSection_checked (hsections i (List.mem_range.2 hi))).1
    apart := fun i hi => (checkSection_checked (hsections i (List.mem_range.2 hi))).2 }

end Win98Modern.Pe
