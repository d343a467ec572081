import Win98Modern.Abi.Geometry

/-!
# Initialized and validated channels

`layout_ok`: a layout that the two passes find has its parts in order inside the region, and no sum of the
passes wraps.  `channelInit_valid` reads the written header back, and from `channelValid` follow the bounds of
every access.
-/

namespace Win98Modern.Shz

open List

variable {t : Target}

theorem Target.sizeMax_add_one (t : Target) : t.sizeMax + 1 = 2 ^ t.bits :=
  Nat.sub_add_cancel (Nat.two_pow_pos t.bits)

theorem Target.two_pow_le (t : Target) : 2 ^ t.bits ≤ 2 ^ 64 := by
  rcases t.bits_eq with h | h <;> rw [h]
  exact Nat.pow_le_pow_right (by omega) (by omega)

variable {x : Nat}

theorem Target.wrap_eq (h : x < 2 ^ t.bits) : t.wrap x = x := Nat.mod_eq_of_lt h

theorem Target.sub_eq {y : Nat} (h : y ≤ x) (hx : x < 2 ^ t.bits) : t.sub x y = x - y := by
  rw [sub, Nat.add_comm, Nat.add_sub_assoc h, Nat.add_mod_left, Nat.mod_eq_of_lt (by omega)]

theorem Target.ringBytes_eq {n : Nat} (hn : n < 2 ^ 32) (h : t.ringBytes n ≠ 0) :
    t.ringBytes n = ringHdrSize + n * SHZ_MSG_SLOT_SIZE ∧ t.ringBytes n < 2 ^ t.bits := by
  have hmax := t.sizeMax_add_one
  simp only [ringBytes] at h ⊢
  split at h
  · rename_i hle
    rw [if_pos hle]
    rw [ringHdrSize, SHZ_MSG_SLOT_SIZE] at *
    omega
  · exact absurd rfl h

namespace Region

open Memory

variable {base bytes slotCount : Nat} {l : Layout}

structure Layout.Ok (t : Target) (base bytes slotCount : Nat) (l : Layout) : Prop where
  ring : t.ringBytes slotCount = ringHdrSize + slotCount * SHZ_MSG_SLOT_SIZE
  address : base + bytes ≤ 2 ^ t.bits
  table : l.tableBytes % 64 = 0
  blocks : 0 < l.blocks ∧ l.blocks ≤ l.tableBytes ∧ l.blocks < 2 ^ 32
  pool : l.poolOffset % SHZ_POOL_BLOCK = 0
  order : channelHdrSize + l.tableBytes + 2 * t.ringBytes slotCount ≤ l.poolOffset
  inside : l.poolOffset + l.blocks * SHZ_POOL_BLOCK ≤ bytes

theorem secondPass_ok {ring tableBytes : Nat} (hbytes : bytes < 2 ^ t.bits)
    (hring : channelHdrSize + 2 * ring ≤ bytes) (h : secondPass t bytes ring tableBytes = some l) :
    l.tableBytes = tableBytes ∧ 0 < l.blocks ∧ l.blocks ≤ l.tableBytes ∧ l.blocks < 2 ^ 32 ∧
      l.poolOffset % SHZ_POOL_BLOCK = 0 ∧ channelHdrSize + l.tableBytes + 2 * ring ≤ l.poolOffset ∧
        l.poolOffset + l.blocks * SHZ_POOL_BLOCK ≤ bytes := by
  have hoff : t.wrap (channelHdrSize + t.wrap (2 * ring)) = channelHdrSize + 2 * ring := by
    rw [Target.wrap_eq (x := 2 * ring) (by omega), Target.wrap_eq (by omega)]
  simp only [secondPass, hoff] at h
  rw [Target.sub_eq hring hbytes] at h
  split at h
  · cases h
  rw [Target.wrap_eq (x := channelHdrSize + 2 * ring + tableBytes) (by omega), Target.sub_eq (by omega) hbytes] at h
  split at h
  · cases h
  rename_i hpad
  generalize hp : (SHZ_POOL_BLOCK - (channelHdrSize + 2 * ring + tableBytes) % SHZ_POOL_BLOCK) % SHZ_POOL_BLOCK = padding
    at h hpad
  rw [Target.wrap_eq (by omega), Target.sub_eq (by omega) hbytes] at h
  have hpool : (channelHdrSize + 2 * ring + tableBytes + padding) % SHZ_POOL_BLOCK = 0 := by
    rw [SHZ_POOL_BLOCK] at *
    omega
  have hin : channelHdrSize + 2 * ring + tableBytes + padding ≤ bytes := by omega
  have hord : channelHdrSize + tableBytes + 2 * ring ≤ channelHdrSize + 2 * ring + tableBytes + padding := by omega
  generalize channelHdrSize + 2 * ring + tableBytes + padding = off at *
  generalize hb : (if tableBytes < (bytes - off) / SHZ_POOL_BLOCK then tableBytes
    else (bytes - off) / SHZ_POOL_BLOCK) = blocks at h
  split at h
  · cases h
  obtain rfl := Option.some.inj h
  have hle : blocks ≤ tableBytes ∧ blocks ≤ (bytes - off) / SHZ_POOL_BLOCK := by
    split at hb <;> omega
  have hmul := Nat.mul_le_of_le_div _ _ _ hle.2
  dsimp only
  exact ⟨rfl, by omega, hle.1, by omega, hpool, hord, by omega⟩

theorem layout_ok (hbase : base < 2 ^ t.bits) (hbytes : bytes < 2 ^ t.bits) (hmin : 65536 ≤ bytes)
    (hcount : slotCount < 2 ^ 32) (h : layout t base bytes slotCount = some l) :
    l.Ok t base bytes slotCount := by
  have hmax := t.sizeMax_add_one
  simp only [layout] at h
  split at h
  · cases h
  rename_i hbad
  obtain ⟨hne, hbad⟩ := not_or.1 hbad
  obtain ⟨hhalf, haddr⟩ := not_or.1 hbad
  obtain ⟨hring, -⟩ := Target.ringBytes_eq hcount hne
  have hhdr : t.sub bytes channelHdrSize = bytes - channelHdrSize :=
    Target.sub_eq (by rw [channelHdrSize]; omega) hbytes
  rw [Target.sub_eq (by omega) hbytes] at haddr
  have htwo : channelHdrSize + 2 * t.ringBytes slotCount ≤ bytes := by
    omega
  split at h
  · cases h
  obtain ⟨htable, hpos, hle, hlt, hpool, hord, hin⟩ := secondPass_ok hbytes htwo h
  exact ⟨hring, by omega, by rw [htable]; exact Nat.mul_mod_left _ _, ⟨hpos, hle, hlt⟩, hpool, hord, hin⟩

/-! ### Writing and reading the header -/

variable {id a b generation ring off : Nat} {m m' : Memory}

theorem ringInit_ok (hal : (base + off) % t.align = 0) (hc : Target.countOk slotCount = true)
    (hring : t.ringBytes slotCount ≠ 0) (hle : t.ringBytes slotCount ≤ ring) (hlt : slotCount < 2 ^ 32)
    (hhdr : ringHdrSize ≤ t.ringBytes slotCount) : ∃ m', ringInit t base off ring slotCount m = some m' ∧
      (∀ i, i < off ∨ off + t.ringBytes slotCount ≤ i → m' i = m i) ∧ load 4 m' off = SHZ_RING_MAGIC.toNat ∧
        load 4 m' (off + oRingSlotCount) = slotCount ∧ load 4 m' (off + oRingSlotSize) = SHZ_MSG_SLOT_SIZE := by
  rw [ringHdrSize] at hhdr
  have hcountAt : oRingSlotCount = 4 := rfl
  have hsizeAt : oRingSlotSize = 8 := rfl
  refine ⟨_, if_neg ?_, fun i hi => ?_, ?_, ?_, ?_⟩
  · rintro (h | h | h | h)
    · exact h hal
    · exact h hc
    · exact hring h
    · omega
  · rw [store_apply (by omega), store_apply (by omega), store_apply (by omega), fill, if_neg (by omega)]
  · exact load_store (by decide)
  · rw [load_store_of_disjoint (by omega), load_store_of_disjoint (by omega), load_store (by omega)]
  · rw [load_store_of_disjoint (by omega), load_store (by decide)]

/-- The header says what it was made for. -/
structure Says (m : Memory) (l : Layout) (ring id a b slotCount : Nat) : Prop where
  abiMajor : load 2 m oAbiMajor = SHZ_ABI_MAJOR.toNat
  channelId : load 4 m oChannelId = id
  domainA : load 4 m oDomainA = a
  domainB : load 4 m oDomainB = b
  slotCount : load 4 m oSlotCount = slotCount
  ringAb : load 8 m oRingAb = channelHdrSize + l.tableBytes
  ringBa : load 8 m oRingBa = channelHdrSize + l.tableBytes + ring
  pool : load 8 m oPool = l.poolOffset
  poolSize : load 8 m oPoolSize = l.blocks * SHZ_POOL_BLOCK

theorem Says.congr (h : Says m l ring id a b slotCount)
    (hm : ∀ i, 4 ≤ i → i < channelHdrSize → m' i = m i) : Says m' l ring id a b slotCount := by
  have hload : ∀ n o, 4 ≤ o → o + n ≤ channelHdrSize → load n m' o = load n m o := fun n o ho hn =>
    load_congr fun i hi hlt => hm i (by omega) (by omega)
  exact ⟨(hload _ _ (by decide) (by decide)).trans h.abiMajor, (hload _ _ (by decide) (by decide)).trans h.channelId,
    (hload _ _ (by decide) (by decide)).trans h.domainA, (hload _ _ (by decide) (by decide)).trans h.domainB,
    (hload _ _ (by decide) (by decide)).trans h.slotCount, (hload _ _ (by decide) (by decide)).trans h.ringAb,
    (hload _ _ (by decide) (by decide)).trans h.ringBa, (hload _ _ (by decide) (by decide)).trans h.pool,
    (hload _ _ (by decide) (by decide)).trans h.poolSize⟩

theorem writeHeader_says (generation : Nat) (hl : l.Ok t base bytes slotCount) (hbytes : bytes < 2 ^ t.bits)
    (hid : id < 2 ^ 32) (ha : a < 2 ^ 32) (hb : b < 2 ^ 32) (hcount : slotCount < 2 ^ 32) :
    Says (writeHeader t l (t.ringBytes slotCount) id a b slotCount generation m) l (t.ringBytes slotCount) id a b
      slotCount := by
  have hpow := t.two_pow_le
  obtain ⟨hring, haddr, htable, ⟨hpos, hle, hblt⟩, hpool, hord, hin⟩ := hl
  have hab : t.wrap (channelHdrSize + l.tableBytes) = channelHdrSize + l.tableBytes := Target.wrap_eq (by omega)
  have hsize : t.wrap (l.blocks * SHZ_POOL_BLOCK) = l.blocks * SHZ_POOL_BLOCK := Target.wrap_eq (by omega)
  have habLt : channelHdrSize + l.tableBytes < 256 ^ 8 := by omega
  have hbaLt : channelHdrSize + l.tableBytes + t.ringBytes slotCount < 2 ^ 64 := by omega
  simp only [writeHeader, hab, hsize, load_store habLt, Nat.mod_eq_of_lt hbaLt]
  refine ⟨?_, ?_, ?_, ?_, ?_, ?_, ?_, ?_, ?_⟩ <;>
    simp (disch := omega) only [oAbiMajor, oAbiMinor, oChannelId, oGeneration, oDomainA, oDomainB, oRingAb, oRingBa,
      oPool, oPoolSize, oSlotCount, load_store_of_disjoint, load_store]

/-- What `shz_ring_init` leaves at an offset. -/
structure RingAt (t : Target) (base off slotCount : Nat) (m : Memory) : Prop where
  aligned : (base + off) % t.align = 0
  magic : load 4 m off = SHZ_RING_MAGIC.toNat
  slotCount : load 4 m (off + oRingSlotCount) = slotCount
  slotSize : load 4 m (off + oRingSlotSize) = SHZ_MSG_SLOT_SIZE

theorem RingAt.congr (h : RingAt t base off slotCount m) (hm : ∀ i, off ≤ i → i < off + ringHdrSize → m' i = m i) :
    RingAt t base off slotCount m' := by
  rw [ringHdrSize] at hm
  have hcountAt : oRingSlotCount = 4 := rfl
  have hsizeAt : oRingSlotSize = 8 := rfl
  exact ⟨h.aligned, (load_congr fun i hi hlt => hm i (by omega) (by omega)).trans h.magic,
    (load_congr fun i hi hlt => hm i (by omega) (by omega)).trans h.slotCount,
    (load_congr fun i hi hlt => hm i (by omega) (by omega)).trans h.slotSize⟩

/-- `shz_channel_init` leaves the region alone, or the region is as its layout says. -/
theorem channelInit_cases (id generation : Nat) (hbase : base < 2 ^ t.bits) (hbytes : bytes < 2 ^ t.bits)
    (hcount : slotCount < 2 ^ 32) :
    (channelInit t base bytes id a b slotCount generation m).1 = m ∧
        (channelInit t base bytes id a b slotCount generation m).2 ≠ .ok ∨
      ∃ l : Layout, l.Ok t base bytes slotCount ∧ argumentsOk t base bytes id a b slotCount ∧
        (channelInit t base bytes id a b slotCount generation m).2 = .ok ∧
        Says (channelInit t base bytes id a b slotCount generation m).1 l (t.ringBytes slotCount) id a b slotCount ∧
        load 4 (channelInit t base bytes id a b slotCount generation m).1 oMagic = SHZ_CHANNEL_MAGIC.toNat ∧
        RingAt t base (channelHdrSize + l.tableBytes) slotCount
          (channelInit t base bytes id a b slotCount generation m).1 ∧
        RingAt t base (channelHdrSize + l.tableBytes + t.ringBytes slotCount) slotCount
          (channelInit t base bytes id a b slotCount generation m).1 := by
  rw [channelInit]
  by_cases hargs : argumentsOk t base bytes id a b slotCount
  swap
  · rw [if_pos hargs]
    exact .inl ⟨rfl, nofun⟩
  rw [if_neg (not_not.2 hargs)]
  rcases hlay : layout t base bytes slotCount with _ | l
  · exact .inl ⟨rfl, nofun⟩
  have hargs' := hargs
  obtain ⟨-, hal, hmin, hid, -, ha, -, hb, -, hc⟩ := hargs'
  have hl := layout_ok hbase hbytes hmin hcount hlay
  rw [SHZ_MAX_CHANNELS] at hid
  have hform := writeHeader_says (m := m) generation hl hbytes (by omega : id < 2 ^ 32)
    (by omega : a < 2 ^ 32) (by omega : b < 2 ^ 32) hcount
  have hring := hl.ring
  have htable := hl.table
  have h128 : channelHdrSize = 128 := rfl
  have h192 : ringHdrSize = 192 := rfl
  rw [h192, SHZ_MSG_SLOT_SIZE] at hring
  have hringNe : t.ringBytes slotCount ≠ 0 := by omega
  have hhdr : ringHdrSize ≤ t.ringBytes slotCount := by omega
  have halignAb : (base + (channelHdrSize + l.tableBytes)) % t.align = 0 := by
    rcases t.align_eq with h | h <;> rw [h] at hal ⊢ <;> omega
  have halignBa : (base + (channelHdrSize + l.tableBytes + t.ringBytes slotCount)) % t.align = 0 := by
    rcases t.align_eq with h | h <;> rw [h] at hal ⊢ <;> omega
  dsimp only
  generalize writeHeader t l (t.ringBytes slotCount) id a b slotCount generation m = m₁ at hform
  rw [hform.ringAb]
  obtain ⟨m₂, hinit₂, hframe₂, hmagic₂, hslots₂, hsize₂⟩ :=
    ringInit_ok (m := m₁) halignAb hc hringNe (Nat.le_refl _) hcount hhdr
  have hform₂ : Says m₂ l (t.ringBytes slotCount) id a b slotCount := hform.congr fun i _ hi => hframe₂ i (by omega)
  rw [hinit₂]
  dsimp only
  rw [hform₂.ringBa]
  obtain ⟨m₃, hinit₃, hframe₃, hmagic₃, hslots₃, hsize₃⟩ :=
    ringInit_ok (m := m₂) halignBa hc hringNe (Nat.le_refl _) hcount hhdr
  have hform₃ : Says m₃ l (t.ringBytes slotCount) id a b slotCount := hform₂.congr fun i _ hi => hframe₃ i (by omega)
  have hab : RingAt t base (channelHdrSize + l.tableBytes) slotCount m₃ :=
    RingAt.congr ⟨halignAb, hmagic₂, hslots₂, hsize₂⟩ fun i _ hi => hframe₃ i (by omega)
  have hba : RingAt t base (channelHdrSize + l.tableBytes + t.ringBytes slotCount) slotCount m₃ :=
    ⟨halignBa, hmagic₃, hslots₃, hsize₃⟩
  rw [hinit₃]
  have hother : ∀ i, 4 ≤ i → store 4 m₃ oMagic SHZ_CHANNEL_MAGIC.toNat i = m₃ i := fun i hi =>
    store_apply (.inr (by omega))
  exact .inr ⟨l, hl, hargs, rfl, hform₃.congr fun i hi _ => hother i hi, load_store (by decide),
    hab.congr fun i hi _ => hother i (by omega), hba.congr fun i hi _ => hother i (by omega)⟩

/-! ### Bounds of the accesses -/

/-- The parts of a region: the header, the owner table, the two rings and the pool, each with its length. -/
def parts (t : Target) (h : Header) : List (Nat × Nat) :=
  [(0, channelHdrSize), (channelHdrSize, h.poolSize / SHZ_POOL_BLOCK), (h.ringAb, t.ringBytes h.slotCount),
    (h.ringBa, t.ringBytes h.slotCount), (h.pool, h.poolSize)]

/-- The parts are in order, none begins before another one ends, and they are inside the region. -/
def Placed (t : Target) (bytes : Nat) (h : Header) : Prop :=
  (parts t h).Pairwise (fun p q => p.1 + p.2 ≤ q.1) ∧ ∀ p ∈ parts t h, p.1 + p.2 ≤ bytes

/-- Every access to a region stays in its part. -/
structure Bounded (t : Target) (bytes : Nat) (m : Memory) : Prop where
  placed : Placed t bytes (header m)
  slot : ∀ off ∈ [(header m).ringAb, (header m).ringBa], ∀ index < 2 ^ 32, off + ringHdrSize ≤ ringSlot t m off index ∧
    ringSlot t m off index + SHZ_MSG_SLOT_SIZE ≤ off + t.ringBytes (header m).slotCount
  alloc : ∀ owner len see, ∀ i ∈ poolAllocTouches m owner len see, i < (header m).poolSize / SHZ_POOL_BLOCK
  release : ∀ owner offset len newOwner see, ∀ i ∈ poolReleaseTouches m owner offset len newOwner see,
    i < (header m).poolSize / SHZ_POOL_BLOCK
  check : ∀ offset len owner see, ∀ i ∈ (poolCheck m offset len owner see).1, i < (header m).poolSize / SHZ_POOL_BLOCK
  buffer : ∀ offset len owner see, (poolCheck m offset len owner see).2 = .ok → ∀ x, offset ≤ x → x < offset + len →
    (header m).pool ≤ x ∧ x < (header m).pool + (header m).poolSize

variable {h : Header} {first need k i : Nat} {see : Nat → BitVec 8}

theorem placed_of_order (htable : channelHdrSize + h.poolSize / SHZ_POOL_BLOCK ≤ h.ringAb)
    (hab : h.ringAb + t.ringBytes h.slotCount ≤ h.ringBa)
    (hba : h.ringBa + t.ringBytes h.slotCount ≤ h.pool) (hpool : h.pool + h.poolSize ≤ bytes) :
    Placed t bytes h := by
  rw [Placed, parts]
  generalize h.poolSize / SHZ_POOL_BLOCK = owners at *
  constructor
  · simp only [pairwise_cons, mem_cons, not_mem_nil, or_false, forall_eq_or_imp, forall_eq]
    refine ⟨⟨?_, ?_, ?_, ?_⟩, ⟨?_, ?_, ?_⟩, ⟨?_, ?_⟩, ?_, nofun, .nil⟩ <;> omega
  · simp only [mem_cons, not_mem_nil, or_false, forall_eq_or_imp, forall_eq]
    refine ⟨?_, ?_, ?_, ?_, ?_⟩ <;> omega

theorem Placed.rings (hp : Placed t bytes h) :
    h.ringAb + t.ringBytes h.slotCount ≤ bytes ∧ h.ringBa + t.ringBytes h.slotCount ≤ bytes :=
  ⟨hp.2 _ (.tail _ (.tail _ (.head _))), hp.2 _ (.tail _ (.tail _ (.tail _ (.head _))))⟩

theorem claimTouches_lt (hk : k ≤ need) (hi : i ∈ (claimTouches first need k see).1) :
    i < first + need := by
  induction k generalizing see with
  | zero => cases hi
  | succ k ih =>
    rw [claimTouches] at hi
    split at hi
    · rcases mem_cons.1 hi with rfl | hi
      · omega
      · exact ih (by omega) hi
    · rcases mem_cons.1 hi with rfl | hi
      · omega
      · rw [mem_reverse, mem_range'_1] at hi
        omega

theorem allocTouches_lt {total run : Nat} (hk : k ≤ total) (hrun : run ≤ total - k)
    (hi : i ∈ allocTouches need total k run see) : i < total := by
  induction k generalizing run see with
  | zero => cases hi
  | succ k ih =>
    rw [allocTouches] at hi
    split at hi
    · rcases mem_cons.1 hi with rfl | hi
      · omega
      · exact ih (by omega) (by omega) hi
    split at hi
    · rename_i hneed
      have hclaim : ∀ j ∈ (claimTouches (total - (k + 1) + 1 - need) need need fun i => see (i + 1)).1, j < total :=
        fun j hj => by
          have := claimTouches_lt (Nat.le_refl need) hj
          omega
      generalize claimTouches (total - (k + 1) + 1 - need) need need (fun i => see (i + 1)) = claim at hi hclaim
      obtain ⟨l, won⟩ := claim
      cases won with
      | true =>
        rcases mem_cons.1 hi with rfl | hi
        · omega
        · exact hclaim i hi
      | false =>
        rcases mem_cons.1 hi with rfl | hi
        · omega
        · rcases mem_append.1 hi with hi | hi
          · exact hclaim i hi
          · exact ih (by omega) (by omega) hi
    · rcases mem_cons.1 hi with rfl | hi
      · omega
      · exact ih (by omega) (by omega) hi

theorem loopTouches_lt {owner j : Nat} (hj : j ∈ (loopTouches owner first k i see).1) :
    j < first + i + k := by
  induction k generalizing i with
  | zero => cases hj
  | succ k ih =>
    rw [loopTouches] at hj
    split at hj
    · rw [mem_singleton] at hj
      omega
    · rcases mem_cons.1 hj with rfl | hj
      · omega
      · have := ih hj
        omega

theorem offsetsValid_order (hbytes : bytes < 2 ^ t.bits) (hv : offsetsValid t bytes h) :
    Placed t bytes h ∧ h.poolSize / SHZ_POOL_BLOCK < 2 ^ 32 ∧ h.poolSize % SHZ_POOL_BLOCK = 0 := by
  obtain ⟨-, -, hmul, -, -, -, hrab, hrba, hrpool, howners, htable, hab, hba⟩ := hv
  rw [rangeOk_iff] at hrab hrba hrpool
  have hpow := t.two_pow_le
  rw [Nat.mod_eq_of_lt (by rw [channelHdrSize]; omega)] at htable
  rw [Nat.mod_eq_of_lt (by omega)] at hab hba
  exact ⟨placed_of_order htable hab hba hrpool, by omega, hmul⟩

/-- The bytes that a release touches are those of its blocks. -/
theorem releaseTouches_lt {owner offset len newOwner : Nat} (hblocks : poolBlocks (header m) = (header m).poolSize / SHZ_POOL_BLOCK)
    (hi : i ∈ poolReleaseTouches m owner offset len newOwner see) : i < (header m).poolSize / SHZ_POOL_BLOCK := by
  rw [poolReleaseTouches] at hi
  dsimp only at hi
  rw [← hblocks]
  split at hi
  · cases hi
  split at hi
  · cases hi
  split at hi
  · cases hi
  rename_i hrange
  rw [Bool.not_eq_true, Bool.not_eq_false, rangeOk_iff] at hrange
  generalize (offset - (header m).pool) / SHZ_POOL_BLOCK = first at *
  have hloop : ∀ j ∈ (loopTouches owner first (blocksNeeded len) 0 see).1, j < poolBlocks (header m) := fun j hj => by
    have := loopTouches_lt hj
    omega
  generalize loopTouches owner first (blocksNeeded len) 0 see = run at hi hloop
  obtain ⟨l, ok⟩ := run
  cases ok with
  | false => exact hloop i hi
  | true =>
    rcases mem_append.1 hi with hi | hi
    · exact hloop i hi
    · rw [mem_range'_1] at hi
      omega

theorem checkTouches_lt {owner offset len : Nat} (hmul : (header m).poolSize % SHZ_POOL_BLOCK = 0)
    (hi : i ∈ (poolCheck m offset len owner see).1) : i < (header m).poolSize / SHZ_POOL_BLOCK := by
  rw [poolCheck] at hi
  dsimp only at hi
  split at hi
  · cases hi
  split at hi
  · cases hi
  split at hi
  · cases hi
  split at hi
  · cases hi
  rename_i hrange
  rw [Bool.not_eq_true, Bool.not_eq_false, rangeOk_iff] at hrange
  generalize hneed : ((offset - (header m).pool) % SHZ_POOL_BLOCK + len + SHZ_POOL_BLOCK - 1) / SHZ_POOL_BLOCK
    % 2 ^ 32 = need at hi
  have hle : (offset - (header m).pool) / SHZ_POOL_BLOCK + need ≤ (header m).poolSize / SHZ_POOL_BLOCK := by
    rw [SHZ_POOL_BLOCK] at *
    omega
  have hloop : ∀ j ∈ (loopTouches owner ((offset - (header m).pool) / SHZ_POOL_BLOCK) need 0 see).1,
      j < (header m).poolSize / SHZ_POOL_BLOCK := fun j hj => by
    have := loopTouches_lt hj
    omega
  generalize loopTouches owner ((offset - (header m).pool) / SHZ_POOL_BLOCK) need 0 see = run at hi hloop
  obtain ⟨l, ok⟩ := run
  cases ok with
  | false => exact hloop i hi
  | true => exact hloop i hi

theorem bounded_of_valid (hbytes : bytes < 2 ^ t.bits) (hv : channelValid t base bytes m) : Bounded t bytes m := by
  obtain ⟨hfields, hoffsets, hrab, hrba, hcab, hcba⟩ := hv
  obtain ⟨hplaced, howners, hmul⟩ := offsetsValid_order hbytes hoffsets
  have hcount : (header m).slotCount < 2 ^ 32 := load_lt
  obtain ⟨hring, hringLt⟩ := Target.ringBytes_eq hcount hoffsets.1
  have hblocks : poolBlocks (header m) = (header m).poolSize / SHZ_POOL_BLOCK := Nat.mod_eq_of_lt howners
  refine ⟨hplaced, fun off hoff index _ => ?_, fun owner len see i hi => ?_,
    fun _ _ _ _ _ _ hi => releaseTouches_lt hblocks hi, fun _ _ _ _ _ hi => checkTouches_lt hmul hi,
    fun offset len owner see hok x hx hlt => ?_⟩
  · have hoffCount : load 4 m (off + oRingSlotCount) = (header m).slotCount := by
      rcases mem_cons.1 hoff with hoff | hoff
      · rw [hoff]
        exact hcab
      · rw [mem_singleton.1 hoff]
        exact hcba
    have hend : off + t.ringBytes (header m).slotCount ≤ bytes := by
      rcases mem_cons.1 hoff with hoff | hoff
      · rw [hoff]
        exact hplaced.rings.1
      · rw [mem_singleton.1 hoff]
        exact hplaced.rings.2
    have hpos : 2 ≤ (header m).slotCount := by
      have := hfields.2.2.2.2.2.2.2.2.2.2
      simp only [Target.countOk, Bool.and_eq_true, decide_eq_true_eq] at this
      exact this.1
    have hand : index &&& ((header m).slotCount - 1) ≤ (header m).slotCount - 1 := Nat.and_le_right
    rw [ringSlot, hoffCount]
    rw [hring, SHZ_MSG_SLOT_SIZE, ringHdrSize] at hend ⊢
    rw [Target.wrap_eq (x := (index &&& ((header m).slotCount - 1)) * 256) (by omega), Target.wrap_eq (by omega)]
    omega
  · rw [poolAllocTouches] at hi
    split at hi
    · cases hi
    · rw [← hblocks]
      exact allocTouches_lt (Nat.le_refl _) (Nat.zero_le _) hi
  · rw [poolCheck] at hok
    split at hok
    · omega
    split at hok
    · cases hok
    split at hok
    · cases hok
    split at hok
    · cases hok
    rename_i hrange
    rw [Bool.not_eq_true, Bool.not_eq_false, rangeOk_iff] at hrange
    omega

theorem channelInit_valid (hbase : base < 2 ^ t.bits) (hbytes : bytes < 2 ^ t.bits) (hcount : slotCount < 2 ^ 32)
    (h : (channelInit t base bytes id a b slotCount generation m).2 = .ok) :
    channelValid t base bytes (channelInit t base bytes id a b slotCount generation m).1 := by
  rcases channelInit_cases (m := m) id generation hbase hbytes hcount with ⟨-, hne⟩ |
    ⟨l, hl, hargs, -, hform, hmagic, hab, hba⟩
  · exact absurd h hne
  generalize (channelInit t base bytes id a b slotCount generation m).1 = m' at *
  obtain ⟨hbase0, hal, hmin, hid, ha0, ha, hb0, hb, hne, hc⟩ := hargs
  obtain ⟨hring, haddr, htable, ⟨hpos, hble, hblt⟩, hpool, hord, hin⟩ := hl
  have hmax := t.sizeMax_add_one
  have hpow := t.two_pow_le
  have h128 : channelHdrSize = 128 := rfl
  have h192 : ringHdrSize = 192 := rfl
  have h4096 : SHZ_POOL_BLOCK = 4096 := rfl
  have howners : l.blocks * SHZ_POOL_BLOCK / SHZ_POOL_BLOCK = l.blocks := Nat.mul_div_cancel _ (by omega)
  rw [h192, SHZ_MSG_SLOT_SIZE] at hring
  have hdom : ∀ d, d ≠ SHZ_DOM_NONE.toNat → d < SHZ_DOM_MAX.toNat → (d = a ∨ d = b) → hasDomain m' d := by
    intro d hd hlt hor
    rw [hasDomain, hform.domainA, hform.domainB]
    exact ⟨Nat.pos_of_ne_zero hd, hlt, hor⟩
  have hhead : header m' = ⟨channelHdrSize + l.tableBytes, channelHdrSize + l.tableBytes + t.ringBytes slotCount,
      l.poolOffset, l.blocks * SHZ_POOL_BLOCK, slotCount⟩ := by
    rw [header, hform.ringAb, hform.ringBa, hform.pool, hform.poolSize, hform.slotCount]
  have hvalid : ∀ off, RingAt t base off slotCount m' → ringValid t base off m' := by
    intro off hr
    rw [ringValid, hr.magic, hr.slotSize, hr.slotCount]
    exact ⟨hr.aligned, rfl, rfl, hc, by omega⟩
  refine ⟨⟨hbase0, by omega, hal, ?_, hmagic, hform.abiMajor, ?_, ?_, ?_, ?_, ?_⟩, ?_, ?_, ?_, ?_, ?_⟩
  · rw [Target.sub_eq (by omega) hbytes]
    omega
  · rw [hform.channelId]
    exact hid
  · rw [hform.domainA]
    exact hdom a ha0 ha (.inl rfl)
  · rw [hform.domainB]
    exact hdom b hb0 hb (.inr rfl)
  · rw [hform.domainA, hform.domainB]
    exact hne
  · rw [hform.slotCount]
    exact hc
  · rw [hhead, offsetsValid]
    simp only [rangeOk_iff, howners]
    have halignAb : (channelHdrSize + l.tableBytes) % t.align = 0 := by
      rcases t.align_eq with h | h <;> rw [h] <;> omega
    have halignBa : (channelHdrSize + l.tableBytes + t.ringBytes slotCount) % t.align = 0 := by
      rcases t.align_eq with h | h <;> rw [h] <;> omega
    refine ⟨by omega, Nat.mul_ne_zero (by omega) (by omega), Nat.mul_mod_left _ _, hpool, halignAb, halignBa, by omega, by omega, hin, by omega, ?_, ?_,
      ?_⟩
    · rw [Nat.mod_eq_of_lt (by omega)]
      omega
    · rw [Nat.mod_eq_of_lt (by omega)]
    · rw [Nat.mod_eq_of_lt (by omega)]
      omega
  · rw [hhead]
    exact hvalid _ hab
  · rw [hhead]
    exact hvalid _ hba
  · rw [hhead]
    exact hab.slotCount
  · rw [hhead]
    exact hba.slotCount

/-- **Channel geometry.**  A region that `shz_channel_init` makes has its parts in order inside it and is valid, one
that it refuses is left as it was, and in a region that `shz_channel_valid` accepts, whatever its bytes are, every
access stays in its part. -/
theorem channel_geometry (t : Target) (base bytes : Fin (2 ^ t.bits)) (id a b slotCount generation : Fin (2 ^ 32))
    (m : Memory) :
    ((channelInit t base bytes id a b slotCount generation m).2 = .ok →
      Placed t bytes (header (channelInit t base bytes id a b slotCount generation m).1) ∧
        channelValid t base bytes (channelInit t base bytes id a b slotCount generation m).1) ∧
    ((channelInit t base bytes id a b slotCount generation m).2 ≠ .ok →
      (channelInit t base bytes id a b slotCount generation m).1 = m) ∧
    (channelValid t base bytes m → Bounded t bytes m) := by
  refine ⟨fun h => ?_, fun h => ?_, bounded_of_valid bytes.isLt⟩
  · have hv := channelInit_valid base.isLt bytes.isLt slotCount.isLt h
    exact ⟨(offsetsValid_order bytes.isLt hv.2.1).1, hv⟩
  · rcases channelInit_cases (a := a) (b := b) (m := m) id generation base.isLt bytes.isLt
      slotCount.isLt with ⟨hm, -⟩ | ⟨_, _, _, hok, _⟩
    · exact hm
    · exact absurd hok h

end Region

end Win98Modern.Shz
