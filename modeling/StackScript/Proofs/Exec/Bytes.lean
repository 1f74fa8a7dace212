import Mathlib.Algebra.Group.Nat.Defs
import StackScript.Exec.Memory

/-!
# Memory as bytes

A memory is a list of bytes that gets longer.  Every access reads or replaces some of them at the place that it
names; whatever fails leaves them as they were.
-/

namespace StackScript

/-! ## Bytes -/

namespace Layout

/-- The number that bytes stand for, the least significant first. -/
def number : List UInt8 → Nat
  | [] => 0
  | b :: bs => b.toNat + 256 * number bs

theorem number_littleEndian (width n : Nat) : number (littleEndian width n) = n % 256 ^ width := by
  induction width generalizing n with
  | zero => simp [littleEndian, number, Nat.mod_one]
  | succ width ih =>
    rw [littleEndian, number, ih, Nat.pow_succ', Nat.mod_mul]
    simp

end Layout

namespace Memory

variable {m m' : Memory}

theorem size_setBytes (bytes : ByteArray) (addr : Nat) (bs : List UInt8) :
    (setBytes bytes addr bs).size = bytes.size := by
  induction bs generalizing bytes addr with
  | nil => rfl
  | cons b bs ih => rw [setBytes, ih, ByteArray.set!, ByteArray.size, Array.size_set!, ByteArray.size]

theorem length_littleEndian (width n : Nat) : (Layout.littleEndian width n).length = width := by
  induction width generalizing n with
  | zero => rfl
  | succ width ih => simp [Layout.littleEndian, ih]

theorem size_zeros (n : Nat) : (zeros n).size = n :=
  Array.size_replicate

/-- All bytes of a memory. -/
def contents (m : Memory) : List UInt8 :=
  m.bytes.data.toList

theorem length_contents (m : Memory) : m.contents.length = m.size :=
  Array.length_toList

/-- Some bytes replaced by others, from a place on. -/
def splice (bytes : List UInt8) (place : Nat) (cs : List UInt8) : List UInt8 :=
  bytes.take place ++ cs ++ bytes.drop (place + cs.length)

variable {bytes cs : List UInt8} {place : Nat}

theorem length_splice (h : place + cs.length ≤ bytes.length) : (splice bytes place cs).length = bytes.length := by
  simp only [splice, List.length_append, List.length_take, List.length_drop]
  omega

theorem getElem?_splice (h : place + cs.length ≤ bytes.length) (i : Nat) : (splice bytes place cs)[i]? =
      if place ≤ i ∧ i < place + cs.length then cs[i - place]? else bytes[i]? := by
  have hmin : min place bytes.length = place := by omega
  simp only [splice, List.append_assoc, List.getElem?_append, List.length_take, hmin, List.getElem?_take,
    List.getElem?_drop]
  grind

/-- Bytes that were put somewhere are there. -/
theorem take_drop_splice {n : Nat} (h : place ≤ bytes.length) (hn : cs.length = n) :
    ((splice bytes place cs).drop place).take n = cs := by
  rw [splice, List.append_assoc, List.drop_left' (List.length_take_of_le h), List.take_left' hn]

theorem splice_append {ds : List UInt8} (h : place + cs.length ≤ bytes.length) :
    splice (splice bytes place cs) (place + cs.length) ds = splice bytes place (cs ++ ds) := by
  have hfront : (bytes.take place ++ cs).length = place + cs.length := by simp; omega
  simp only [splice, List.length_append]
  rw [List.take_left' hfront, List.drop_append, List.drop_of_length_le (by omega), hfront, List.nil_append,
    List.drop_drop, Nat.add_sub_cancel_left]
  simp only [List.append_assoc, Nat.add_assoc]

theorem toList_setBytes {bytes : ByteArray} (h : place + cs.length ≤ bytes.size) :
    (setBytes bytes place cs).data.toList = splice bytes.data.toList place cs := by
  induction cs generalizing bytes place with
  | nil => simp [setBytes, splice]
  | cons c cs ih =>
    obtain ⟨data⟩ := bytes
    have hsize : data.size = data.toList.length := rfl
    rw [List.length_cons] at h
    simp only [ByteArray.size] at h
    rw [setBytes, ih (by simp only [ByteArray.set!, ByteArray.size, Array.size_set!]; omega)]
    simp only [ByteArray.set!, Array.set!_eq_setIfInBounds, Array.toList_setIfInBounds]
    apply List.ext_getElem?
    intro i
    rw [getElem?_splice (by simp; omega), getElem?_splice (by simp; omega)]
    grind

theorem getNat_eq {bytes : ByteArray} {width : Nat} (h : place + width ≤ bytes.size) :
    getNat bytes place width = Layout.number ((bytes.data.toList.drop place).take width) := by
  induction width generalizing place with
  | zero => rfl
  | succ width ih =>
    obtain ⟨data⟩ := bytes
    have hlt : place < data.toList.length := Nat.lt_of_lt_of_le (by omega) h
    rw [getNat, ih (by omega), List.drop_eq_getElem_cons hlt, List.take_succ_cons, Layout.number]
    congr 2
    exact getElem!_pos data place hlt

theorem load_eq (kind : MemKind) (addr : BitVec 32) (offset : Nat) (m : Memory) :
    load kind addr offset m = if effective addr offset + kind.width ≤ m.size then
      .ok (valueOf (Layout.number ((m.contents.drop (effective addr offset)).take kind.width)) kind) m
    else .error (.outOfBounds (effective addr offset) kind.width) m := by
  split
  next h =>
    rw [contents, ← getNat_eq h]
    simp only [load, inBounds, bind, EStateM.bind, h, if_true]
    rfl
  next h => simp only [load, inBounds, bind, EStateM.bind, h, if_false]

theorem toList_loop (bytes : ByteArray) (i : Nat) (r : List UInt8) :
    ByteArray.toList.loop bytes i r = r.reverse ++ bytes.data.toList.drop i := by
  fun_induction ByteArray.toList.loop bytes i r with
  | case1 i r hlt ih =>
    obtain ⟨data⟩ := bytes
    have hget : ByteArray.get! ⟨data⟩ i = data.toList.get ⟨i, hlt⟩ := getElem!_pos data i hlt
    rw [ih, List.drop_eq_getElem_cons hlt, List.reverse_cons, List.append_assoc, hget]
    rfl
  | case2 i r hge => rw [List.drop_of_length_le (Nat.le_of_not_lt hge), List.append_nil]

theorem read_eq (addr len : Nat) (m : Memory) :
    read addr len m = if addr + len ≤ m.size then .ok ((m.contents.drop addr).take len) m
      else .error (.outOfBounds addr len) m := by
  have hextract : (m.bytes.extract addr (addr + len)).toList = (m.contents.drop addr).take len := by
    rw [ByteArray.toList, toList_loop, ByteArray.data_extract, Array.toList_extract, List.extract_eq_take_drop,
      Nat.add_sub_cancel_left]
    rfl
  rw [← hextract]
  by_cases hin : addr + len ≤ m.size
  · rw [if_pos hin]
    simp only [read, inBounds, bind, EStateM.bind, hin, if_true]
    rfl
  · rw [if_neg hin]
    simp only [read, inBounds, bind, EStateM.bind, hin, if_false]

/-- A string object is read as its bytes. -/
theorem readStr_of_contents {ptr : BitVec 32} {bs : List UInt8} {m : Memory} (hsize : bs.length < Layout.addressLimit)
    (h : (m.contents.drop ptr.toNat).take (Layout.strHeader + bs.length) =
      Layout.littleEndian Layout.strHeader bs.length ++ bs) : readStr ptr m = .ok bs m := by
  have hhead := length_littleEndian Layout.strHeader bs.length
  have hroom : ptr.toNat + Layout.strHeader + bs.length ≤ m.size := by
    have hlength := congrArg List.length h
    rw [List.length_take, List.length_drop, length_contents, List.length_append, hhead] at hlength
    unfold Layout.strHeader at hlength ⊢
    omega
  have hnumber : getNat m.bytes ptr.toNat Layout.strHeader = bs.length := by
    have htake := congrArg (List.take Layout.strHeader) h
    rw [List.take_take, Nat.min_eq_left (Nat.le_add_right _ _), List.take_left' hhead] at htake
    rw [getNat_eq (show ptr.toNat + Layout.strHeader ≤ m.size by omega), show m.bytes.data.toList = m.contents from rfl,
      htake, Layout.number_littleEndian]
    exact Nat.mod_eq_of_lt hsize
  have hbytes := congrArg (List.drop Layout.strHeader) h
  rw [List.drop_left' hhead, List.drop_take, List.drop_drop, Nat.add_sub_cancel_left] at hbytes
  have hin : ptr.toNat + Layout.strHeader ≤ m.size := by omega
  have hget : (get : Action Memory) m = .ok m m := rfl
  simp only [readStr, inBounds, bind, EStateM.bind, hget, hin, if_true, hnumber]
  rw [read_eq, if_pos hroom, hbytes]

theorem toList_copy {bytes : ByteArray} {source target len : Nat} (hsource : source + len ≤ bytes.size)
    (htarget : target + len ≤ bytes.size) :
    ((bytes.extract source (source + len)).copySlice 0 bytes target len).data.toList =
      splice bytes.data.toList target ((bytes.data.toList.drop source).take len) := by
  obtain ⟨data⟩ := bytes
  simp only [ByteArray.size] at hsource htarget
  have hlen : ((data.toList.drop source).take len).length = len := by simp; omega
  simp only [ByteArray.copySlice, ByteArray.data_extract, splice, hlen, Array.toList_append, Array.toList_extract,
    Array.size_extract, List.extract_eq_take_drop]
  have hcopied : min len (min (source + len) data.size - source) = len := by omega
  have hrest : (data.toList.drop (target + len)).length ≤ data.size - (target + len) := by simp
  simp [hcopied, List.take_take, List.take_of_length_le hrest]

theorem size_growTo (stop : Nat) (m : Memory) : stop ≤ (growTo stop m).size ∧
    ((growTo stop m).size = m.size ∨ m.size < stop ∧ (growTo stop m).size = pagesFor stop * pageSize) := by
  unfold growTo
  split
  next hsmall =>
    simp only [size, ByteArray.size_append, size_zeros, pagesFor, pageSize] at hsmall ⊢
    omega
  · omega

/-- Memory grows by zeros. -/
theorem contents_growTo (stop : Nat) (m : Memory) :
    ∃ n, (growTo stop m).contents = m.contents ++ List.replicate n 0 := by
  unfold growTo
  split
  · refine ⟨pagesFor stop * pageSize - m.size, ?_⟩
    simp only [contents, ByteArray.data_append, Array.toList_append, zeros, Array.toList_replicate]
  · exact ⟨0, by simp⟩

end Memory

/-- The type of the values that an access reads and writes. -/
def MemKind.ty : MemKind → ValType
  | .u8 | .i32 => .i32
  | .i64 => .i64
  | .f64 => .f64

namespace Value

/-- The bits of a value, as a number. -/
def bits : Value → Nat
  | i32 v => v.toNat
  | i64 v => v.toNat
  | f64 v => v.bits.toNat

/-- What an access keeps of a value: of a byte, the lowest eight bits. -/
def kept : MemKind → Value → Value
  | .u8, i32 v => i32 ((v.setWidth 8).setWidth 32)
  | _, v => v

end Value

namespace Memory

variable {m m' : Memory} {kind : MemKind} {v : Value}

theorem numberOf_eq (hv : v.ty = kind.ty) : numberOf v kind = .ok v.bits := by
  cases kind <;> cases v <;> first | rfl | cases hv

/-- The number that an access has written is read as what it keeps. -/
theorem valueOf_bits (hv : v.ty = kind.ty) : valueOf (v.bits % 256 ^ kind.width) kind = v.kept kind := by
  have hfits (w : Nat) (b : BitVec w) : BitVec.ofNat w (b.toNat % 2 ^ w) = b := by simp
  cases kind <;> cases v <;> cases hv
  · exact congrArg Value.i32 (hfits 32 _)
  · exact congrArg Value.i64 (hfits 64 _)
  · exact congrArg (Value.f64 ⟨·⟩) (hfits 64 _)
  · refine congrArg Value.i32 (BitVec.eq_of_toNat_eq ?_)
    have hpow : 256 ^ MemKind.u8.width = 2 ^ 8 := rfl
    simp only [Value.bits, hpow, BitVec.toNat_ofNat, BitVec.toNat_setWidth]

variable {addr : BitVec 32} {offset n place base limit : Nat} {cs : List UInt8} {blocks : List (Nat × Nat)}

theorem store_of_inBounds (h : addr.toNat + offset + kind.width ≤ m.size) (hv : numberOf v kind = .ok n) :
    store kind addr offset v m = .ok () { m with
      bytes := setBytes m.bytes (effective addr offset) (Layout.littleEndian kind.width n) } := by
  simp only [store, inBounds, effective, bind, EStateM.bind, h, if_true, hv]
  rfl

theorem store_of_outOfBounds (h : ¬addr.toNat + offset + kind.width ≤ m.size) :
    store kind addr offset v m = .error (.outOfBounds (effective addr offset) kind.width) m := by
  simp only [store, inBounds, effective, bind, EStateM.bind, h, if_false]

/-- A memory with other bytes at a place. -/
def Updates (m : Memory) (place : Nat) (cs : List UInt8) (m' : Memory) : Prop :=
  m'.contents = splice m.contents place cs ∧ m'.next = m.next ∧ m'.maxPages = m.maxPages

namespace Updates

variable {place : Nat} {cs : List UInt8}

theorem size_eq (h : m.Updates place cs m') (hroom : place + cs.length ≤ m.size) : m'.size = m.size := by
  rw [← length_contents, h.1, length_splice (by rwa [length_contents]), length_contents]

/-- What an access has written is read again. -/
theorem load {addr : BitVec 32} {offset : Nat} (hroom : effective addr offset + kind.width ≤ m.size)
    (hv : v.ty = kind.ty) (h : m.Updates (effective addr offset) (Layout.littleEndian kind.width v.bits) m') :
    load kind addr offset m' = .ok (v.kept kind) m' := by
  have hlength := length_littleEndian kind.width v.bits
  have hbelow : effective addr offset ≤ m.contents.length := by rw [length_contents]; omega
  rw [load_eq, h.size_eq (by rwa [hlength]), if_pos hroom, h.1, take_drop_splice hbelow hlength,
    Layout.number_littleEndian, valueOf_bits hv]

theorem append {ds : List UInt8} {m₁ : Memory} (h : m.Updates place cs m₁) (h' : m₁.Updates (place + cs.length) ds m')
    (hroom : place + cs.length ≤ m.size) : m.Updates place (cs ++ ds) m' :=
  ⟨by rw [h'.1, h.1, splice_append (by rwa [length_contents])], h'.2.1.trans h.2.1, h'.2.2.trans h.2.2⟩

end Updates

theorem updates_setBytes (h : place + cs.length ≤ m.size) :
    m.Updates place cs { m with bytes := setBytes m.bytes place cs } :=
  ⟨toList_setBytes h, rfl, rfl⟩

theorem write_of_inBounds {addr : Nat} {bs : List UInt8} (h : addr + bs.length ≤ m.size) :
    write addr bs m = .ok () { m with bytes := setBytes m.bytes addr bs } := by
  simp only [write, inBounds, bind, EStateM.bind, h, if_true]
  rfl

theorem write_cases (addr : Nat) (bs : List UInt8) (m : Memory) : (∃ e, write addr bs m = .error e m) ∨
      ∃ m', write addr bs m = .ok () m' ∧ addr + bs.length ≤ m.size ∧ m.Updates addr bs m' := by
  by_cases hroom : addr + bs.length ≤ m.size
  · exact .inr ⟨_, write_of_inBounds hroom, hroom, updates_setBytes hroom⟩
  · refine .inl ⟨.outOfBounds addr bs.length, ?_⟩
    simp only [write, inBounds, bind, EStateM.bind, hroom, if_false]

/-- A store that fails, be it for want of a value of the right type, leaves the memory as it was. -/
theorem store_cases (kind : MemKind) (addr : BitVec 32) (offset : Nat) (v : Value) (m : Memory) :
    (∃ e, store kind addr offset v m = .error e m) ∨
      ∃ n m', store kind addr offset v m = .ok () m' ∧ effective addr offset + kind.width ≤ m.size ∧
        m.Updates (effective addr offset) (Layout.littleEndian kind.width n) m' := by
  by_cases hroom : addr.toNat + offset + kind.width ≤ m.size
  · cases hv : numberOf v kind with
    | ok n =>
      exact .inr ⟨n, _, store_of_inBounds hroom hv, hroom, updates_setBytes (by rwa [length_littleEndian])⟩
    | error e =>
      refine .inl ⟨e, ?_⟩
      simp only [store, inBounds, effective, bind, EStateM.bind, hroom, if_true, hv]
      rfl
  · exact .inl ⟨_, store_of_outOfBounds hroom⟩

theorem copy_cases (target source len : BitVec 32) (m : Memory) : ((∃ e, copy target source len m = .error e m) ∧
      ¬(source.toNat + len.toNat ≤ m.size ∧ target.toNat + len.toNat ≤ m.size)) ∨
    ∃ m', copy target source len m = .ok () m' ∧ source.toNat + len.toNat ≤ m.size ∧ target.toNat + len.toNat ≤ m.size ∧
        m.Updates target.toNat ((m.contents.drop source.toNat).take len.toNat) m' := by
  by_cases hsource : source.toNat + len.toNat ≤ m.size
  · by_cases htarget : target.toNat + len.toNat ≤ m.size
    · have hupdates : m.Updates target.toNat ((m.contents.drop source.toNat).take len.toNat) { m with
          bytes := (m.bytes.extract source.toNat (source.toNat + len.toNat)).copySlice 0 m.bytes target.toNat
            len.toNat } := ⟨toList_copy hsource htarget, rfl, rfl⟩
      refine .inr ⟨_, ?_, hsource, htarget, hupdates⟩
      simp only [copy, bind, EStateM.bind, inBounds, hsource, htarget, if_true]
      rfl
    · refine .inl ⟨⟨.outOfBounds target.toNat len.toNat, ?_⟩, fun h => htarget h.2⟩
      simp only [copy, bind, EStateM.bind, inBounds, hsource, htarget, if_true, if_false]
  · refine .inl ⟨⟨.outOfBounds source.toNat len.toNat, ?_⟩, fun h => hsource h.1⟩
    simp only [copy, bind, EStateM.bind, inBounds, hsource, if_false]

/-- **Memory is an array of bytes under every access.** -/
theorem accesses_bytewise (m : Memory) :
    (∀ kind (addr : BitVec 32) (offset : UInt32), load kind addr offset.toNat m =
      let place := addr.toNat + offset.toNat
      if place + kind.width ≤ m.size then
        .ok (valueOf (Layout.number ((m.contents.drop place).take kind.width)) kind) m
      else .error (.outOfBounds place kind.width) m) ∧
    (∀ kind (addr : BitVec 32) (offset : UInt32) v, v.ty = kind.ty →
      let place := addr.toNat + offset.toNat
      if place + kind.width ≤ m.size then
        ∃ m', store kind addr offset.toNat v m = .ok () m' ∧
          m.Updates place (Layout.littleEndian kind.width v.bits) m' ∧
          load kind addr offset.toNat m' = .ok (v.kept kind) m' ∧
          ∀ i, i < place ∨ place + kind.width ≤ i → m'.contents[i]? = m.contents[i]?
      else store kind addr offset.toNat v m = .error (.outOfBounds place kind.width) m) ∧
    (∀ target source len : BitVec 32,
      if source.toNat + len.toNat ≤ m.size ∧ target.toNat + len.toNat ≤ m.size then
        ∃ m', copy target source len m = .ok () m' ∧
          m.Updates target.toNat ((m.contents.drop source.toNat).take len.toNat) m'
      else ∃ e, copy target source len m = .error e m) ∧
    ∀ kind addr offset v e m', store kind addr offset v m = .error e m' → m' = m := by
  refine ⟨fun kind addr offset => load_eq .., ?_, fun target source len => ?_, ?_⟩
  · intro kind addr offset v hv
    dsimp only
    split
    next hroom =>
      have hroom' : addr.toNat + offset.toNat + (Layout.littleEndian kind.width v.bits).length ≤ m.size := by
        rwa [length_littleEndian]
      have hupdates := updates_setBytes hroom'
      refine ⟨_, store_of_inBounds hroom (numberOf_eq hv), hupdates, hupdates.load hroom hv, fun i hi => ?_⟩
      refine (congrArg (·[i]?) hupdates.1).trans ((getElem?_splice hroom' i).trans (if_neg ?_))
      rw [length_littleEndian]
      omega
    next hroom => exact store_of_outOfBounds hroom
  · obtain ⟨hfails, hroom⟩ | ⟨m', h, hsource, htarget, hupdates⟩ := copy_cases target source len m
    · rwa [if_neg hroom]
    · rw [if_pos ⟨hsource, htarget⟩]
      exact ⟨m', h, hupdates⟩
  · intro kind addr offset v e m' h
    obtain ⟨e', h'⟩ | ⟨n, m₁, h', -⟩ := store_cases kind addr offset v m
    · cases h'.symm.trans h
      rfl
    · cases h'.symm.trans h

theorem accesses_bytewise_unaligned : ∃ m', store .i64 3 1 (.i64 258) ⟨zeros 16, 0, 1⟩ = .ok () m' ∧
    load .i64 3 1 m' = .ok (.i64 258) m' := by
  have h := (accesses_bytewise ⟨zeros 16, 0, 1⟩).2.1 .i64 3 1 (.i64 258) rfl
  rw [if_pos (by decide)] at h
  obtain ⟨m', hstore, -, hload, -⟩ := h
  exact ⟨m', hstore, hload⟩

/-! ## Allocation -/

theorem alloc_eq (n : Nat) (m : Memory) :
    alloc n m =
      let stop := m.next + max n 1
      if Layout.addressLimit ≤ stop || (m.size < stop && m.maxPages < pagesFor stop) then
        .error (.outOfMemory m.maxPages) m
      else .ok m.next { growTo stop m with next := Layout.align stop } := by
  dsimp only
  split
  next hfull => exact congrFun (if_pos hfull) m
  next hroom => exact congrFun (if_neg hroom) m

/-- What an allocation does. -/
structure Allocates (m : Memory) (size : Nat) (m' : Memory) : Prop where
  inside : m.next + max size 1 ≤ m'.size
  below : m.next + max size 1 < Layout.addressLimit
  next : m'.next = Layout.align (m.next + max size 1)
  maxPages : m'.maxPages = m.maxPages
  zeros : ∃ n, m'.contents = m.contents ++ List.replicate n 0
  pages : m'.size = m.size ∨ m'.size ≤ m.maxPages * pageSize

/-- Allocation gives the next address, or there is no memory left. -/
theorem alloc_cases (size : Nat) (m : Memory) : alloc size m = .error (.outOfMemory m.maxPages) m ∨
      ∃ m', alloc size m = .ok m.next m' ∧ m.Allocates size m' := by
  rw [alloc_eq]
  dsimp only
  split
  · exact .inl rfl
  next hroom =>
    simp only [Bool.or_eq_true, Bool.and_eq_true, decide_eq_true_eq, not_or, not_and] at hroom
    obtain ⟨hinside, hsize⟩ := size_growTo (m.next + max size 1) m
    refine .inr ⟨_, rfl, hinside, Nat.lt_of_not_le hroom.1, rfl, ?_, contents_growTo _ m, ?_⟩
    · unfold growTo
      split <;> rfl
    · refine hsize.imp_right fun ⟨hsmall, hgrown⟩ => Nat.le_trans (Nat.le_of_eq hgrown) ?_
      exact Nat.mul_le_mul_right pageSize (Nat.le_of_not_lt (hroom.2 hsmall))

/-- A new string object is new memory with the length and the bytes in it. -/
theorem allocStr_cases (bs : List UInt8) (m : Memory) : allocStr bs m = .error (.outOfMemory m.maxPages) m ∨
      ∃ m₁ m', alloc (Layout.strHeader + bs.length) m = .ok m.next m₁ ∧
        m.Allocates (Layout.strHeader + bs.length) m₁ ∧ allocStr bs m = .ok m.next m' ∧
        m₁.Updates m.next (Layout.littleEndian Layout.strHeader bs.length ++ bs) m' := by
  obtain h | ⟨m₁, h, halloc⟩ := alloc_cases (Layout.strHeader + bs.length) m
  · refine .inl ?_
    simp only [allocStr, bind, EStateM.bind, h]
  · have hinside := halloc.inside
    have hlength := length_littleEndian Layout.strHeader bs.length
    have hhead : m.next + (Layout.littleEndian Layout.strHeader bs.length).length ≤ m₁.size := by omega
    have hfirst := updates_setBytes hhead
    have hrest := Nat.le_trans (show m.next + Layout.strHeader + bs.length ≤ m₁.size by omega)
      (Nat.le_of_eq (hfirst.size_eq hhead).symm)
    have hsecond := updates_setBytes hrest
    refine .inr ⟨m₁, _, h, halloc, ?_, hfirst.append (hlength.symm ▸ hsecond) hhead⟩
    simp only [allocStr, bind, EStateM.bind, h]
    rw [write_of_inBounds hhead]
    dsimp only
    rw [write_of_inBounds hrest]
    rfl

/-- What a memory can be asked to do. -/
inductive Call where
  | alloc (size : Nat)
  | allocStr (bs : List UInt8)
  | store (kind : MemKind) (addr : BitVec 32) (offset : Nat) (v : Value)
  | write (addr : Nat) (bs : List UInt8)
  | copy (target source len : BitVec 32)

/-- Does what is asked, and gives the new block, with its size. -/
def Call.run : Call → Action (List (Nat × Nat))
  | alloc size => do return [(← Memory.alloc size, max size 1)]
  | allocStr bs => do return [(← Memory.allocStr bs, Layout.strHeader + bs.length)]
  | store kind addr offset v => do
    Memory.store kind addr offset v
    return []
  | write addr bs => do
    Memory.write addr bs
    return []
  | copy target source len => do
    Memory.copy target source len
    return []

/-- The blocks and the memory after calls, of which some may have failed. -/
inductive Served (origin : Memory) : List (Nat × Nat) → Memory → Prop
  | start : Served origin [] origin
  | done {blocks m new m'} (before : Served origin blocks m) (c : Call) (run : c.run m = .ok new m') :
      Served origin (blocks ++ new) m'
  | failed {blocks m e m'} (before : Served origin blocks m) (c : Call) (run : c.run m = .error e m') :
      Served origin blocks m'

/-- What a call that succeeds leaves. -/
structure Leaves (m : Memory) (new : List (Nat × Nat)) (m' : Memory) : Prop where
  maxPages : m'.maxPages = m.maxPages
  size : m.size ≤ m'.size
  pages : m'.size = m.size ∨ m'.size ≤ m.maxPages * pageSize
  block : new = [] ∧ m'.next = m.next ∨ ∃ n, new = [(m.next, n)] ∧ m.next + n ≤ m'.size ∧
    m'.next = Layout.align (m.next + n)

theorem Leaves.of_updates (h : m.Updates place cs m') (hroom : place + cs.length ≤ m.size) : m.Leaves [] m' := by
  have hsize := h.size_eq hroom
  exact ⟨h.2.2, Nat.le_of_eq hsize.symm, .inl hsize, .inl ⟨rfl, h.2.1⟩⟩

theorem Allocates.size_le (h : m.Allocates n m') : m.size ≤ m'.size := by
  obtain ⟨k, hk⟩ := h.zeros
  rw [← length_contents, ← length_contents, hk]
  simp

/-- A call that fails leaves the memory as it was. -/
theorem Call.run_cases (c : Call) (m : Memory) :
    (∃ e, c.run m = .error e m) ∨ ∃ new m', c.run m = .ok new m' ∧ m.Leaves new m' := by
  cases c with
  | alloc size =>
    simp only [run, bind, EStateM.bind]
    obtain h | ⟨m', h, halloc⟩ := alloc_cases size m
    · rw [h]
      exact .inl ⟨_, rfl⟩
    · rw [h]
      exact .inr ⟨_, m', rfl, halloc.maxPages, halloc.size_le, halloc.pages, .inr ⟨_, rfl, halloc.inside, halloc.next⟩⟩
  | allocStr bs =>
    simp only [run, bind, EStateM.bind]
    obtain h | ⟨m₁, m', -, halloc, h, hupdates⟩ := allocStr_cases bs m
    · rw [h]
      exact .inl ⟨_, rfl⟩
    · rw [h]
      have hmax : max (Layout.strHeader + bs.length) 1 = Layout.strHeader + bs.length := by
        unfold Layout.strHeader
        omega
      have hinside := hmax ▸ halloc.inside
      have hsize := hupdates.size_eq (by rwa [List.length_append, length_littleEndian])
      refine .inr ⟨_, m', rfl, hupdates.2.2.trans halloc.maxPages, ?_, ?_, .inr ⟨_, rfl, ?_, ?_⟩⟩
      · rw [hsize]
        exact halloc.size_le
      · rw [hsize]
        exact halloc.pages
      · rwa [hsize]
      · rw [hupdates.2.1, halloc.next, hmax]
  | store kind addr offset v =>
    simp only [run, bind, EStateM.bind]
    obtain ⟨e, h⟩ | ⟨n, m', h, hroom, hupdates⟩ := store_cases kind addr offset v m
    · rw [h]
      exact .inl ⟨_, rfl⟩
    · rw [h]
      exact .inr ⟨_, m', rfl, .of_updates hupdates (by rwa [length_littleEndian])⟩
  | write addr bs =>
    simp only [run, bind, EStateM.bind]
    obtain ⟨e, h⟩ | ⟨m', h, hroom, hupdates⟩ := write_cases addr bs m
    · rw [h]
      exact .inl ⟨_, rfl⟩
    · rw [h]
      exact .inr ⟨_, m', rfl, .of_updates hupdates hroom⟩
  | copy target source len =>
    simp only [run, bind, EStateM.bind]
    obtain ⟨⟨e, h⟩, -⟩ | ⟨m', h, hsource, htarget, hupdates⟩ := copy_cases target source len m
    · rw [h]
      exact .inl ⟨_, rfl⟩
    · rw [h]
      refine .inr ⟨_, m', rfl, .of_updates hupdates ?_⟩
      rw [List.length_take_of_le (by rw [List.length_drop, length_contents]; omega)]
      exact htarget

/-- What holds of a memory whatever it is asked to do. -/
structure Tidy (base limit : Nat) (blocks : List (Nat × Nat)) (m : Memory) : Prop where
  aligned : Layout.word ∣ m.next
  base : base ≤ m.next
  behind : ∀ b ∈ blocks, b.1 + b.2 ≤ m.next
  small : m.next ≤ Layout.addressLimit - Layout.word
  size : m.size ≤ limit * pageSize
  limit : m.maxPages = limit

theorem dvd_align (n : Nat) : Layout.word ∣ Layout.align n :=
  Nat.dvd_mul_left _ _

theorem le_align (n : Nat) : n ≤ Layout.align n := by
  unfold Layout.align Layout.word
  omega

/-- A call keeps a memory tidy, and only adds to it. -/
theorem Leaves.tidy {new : List (Nat × Nat)} (hlimit : limit < pageSize)
    (ht : m.Tidy base limit blocks) (h : m.Leaves new m') : m'.Tidy base limit (blocks ++ new) ∧ m.next ≤ m'.next := by
  have hsize : m'.size ≤ limit * pageSize := by
    obtain hsame | hgrown := h.pages
    · exact hsame ▸ ht.size
    · exact ht.limit ▸ hgrown
  obtain ⟨rfl, hnext⟩ | ⟨n, rfl, hinside, hnext⟩ := h.block
  · rw [List.append_nil]
    exact ⟨⟨hnext ▸ ht.aligned, hnext ▸ ht.base, hnext ▸ ht.behind, hnext ▸ ht.small, hsize,
      h.maxPages.trans ht.limit⟩, Nat.le_of_eq hnext.symm⟩
  · have hle : m.next + n ≤ m'.next := hnext ▸ le_align _
    refine ⟨⟨hnext ▸ dvd_align _, ?_, ?_, ?_, hsize, h.maxPages.trans ht.limit⟩, ?_⟩
    · exact Nat.le_trans ht.base (by omega)
    · intro b hb
      rcases List.mem_append.1 hb with hb | hb
      · exact Nat.le_trans (ht.behind b hb) (by omega)
      · obtain rfl := List.mem_singleton.1 hb
        exact hle
    · have hroom : limit * pageSize ≤ (pageSize - 1) * pageSize := Nat.mul_le_mul_right _ (Nat.le_pred_of_lt hlimit)
      have hmax : Layout.addressLimit = 4294967296 := rfl
      simp only [hnext, Layout.align, Layout.word, hmax, pageSize] at hroom hsize ⊢
      omega
    · omega

theorem Served.tidy {origin : Memory} (hlimit : limit < pageSize)
    (ht : origin.Tidy base limit []) (h : origin.Served blocks m) : m.Tidy base limit blocks := by
  induction h with
  | start => exact ht
  | @done _ m _ _ _ c run ih =>
    obtain ⟨e, h⟩ | ⟨new, m', h, hleaves⟩ := c.run_cases m
    · cases h.symm.trans run
    · cases h.symm.trans run
      exact (hleaves.tidy hlimit ih).1
  | @failed _ m _ _ _ c run ih =>
    obtain ⟨e, h⟩ | ⟨new, m', h, -⟩ := c.run_cases m
    · cases h.symm.trans run
      exact ih
    · cases h.symm.trans run

theorem leaves_writeAll {u : Unit} : ∀ {ds : List DataSegment} {m : Memory}, writeAll ds m = .ok u m' →
    m'.next = m.next ∧ m'.size = m.size ∧ m'.maxPages = m.maxPages
  | [], m, h => by
    cases h
    exact ⟨rfl, rfl, rfl⟩
  | d :: _, m, h => by
    simp only [writeAll, bind, EStateM.bind] at h
    obtain ⟨e, hd⟩ | ⟨m₁, hd, hroom, hupdates⟩ := write_cases d.offset.toNat d.bytes m
    · rw [hd] at h
      cases h
    · rw [hd] at h
      obtain ⟨hnext, hsize, hmax⟩ := leaves_writeAll h
      exact ⟨hnext.trans hupdates.2.1, hsize.trans (hupdates.size_eq hroom), hmax.trans hupdates.2.2⟩

theorem ofModule_eq_ok {module : Module} {maxPages : Nat} (h : ofModule module maxPages = .ok m) :
    module.minPages.toNat ≤ maxPages ∧ m.next = Layout.align module.heapBase.toNat ∧
      m.size = module.minPages.toNat * pageSize ∧ m.maxPages = maxPages := by
  unfold ofModule at h
  dsimp only at h
  split at h
  · cases h
  next hpages =>
    split at h
    next hrun =>
      cases h
      obtain ⟨hnext, hsize, hmax⟩ := leaves_writeAll hrun
      exact ⟨Nat.le_of_not_lt hpages, hnext, hsize.trans (size_zeros _), hmax⟩
    · cases h

/-- **Blocks are handed out one behind the other.** -/
theorem allocates_forward {module : Module} {maxPages : Nat} {origin m : Memory} {blocks : List (Nat × Nat)}
    (hpages : maxPages ≤ 65535) (hbase : module.heapBase.toNat ≤ Layout.addressLimit - Layout.word)
    (loaded : ofModule module maxPages = .ok origin) (served : origin.Served blocks m) :
    (∀ size, alloc size m = .error (.outOfMemory maxPages) m ∨
      ∃ addr m', alloc size m = .ok addr m' ∧ Layout.word ∣ addr ∧ module.heapBase.toNat ≤ addr ∧
        (∀ b ∈ blocks, b.1 + b.2 ≤ addr) ∧ addr + max size 1 ≤ m'.size ∧
          ∃ n, m'.contents = m.contents ++ List.replicate n 0) ∧
    (∀ bs, allocStr bs m = .error (.outOfMemory maxPages) m ∨
      ∃ addr m₁ m', alloc (Layout.strHeader + bs.length) m = .ok addr m₁ ∧ allocStr bs m = .ok addr m' ∧
        m₁.Updates addr (Layout.littleEndian Layout.strHeader bs.length ++ bs) m') ∧
    ∀ c : Call, (∃ e, c.run m = .error e m) ∨ ∃ new m', c.run m = .ok new m' ∧ m.next ≤ m'.next ∧
      m'.next < Layout.addressLimit ∧ m.size ≤ m'.size ∧ m'.pages ≤ max maxPages origin.pages := by
  obtain ⟨hmin, hnext, hsize, hmax⟩ := ofModule_eq_ok loaded
  have hstart : origin.Tidy module.heapBase.toNat maxPages [] := by
    refine ⟨hnext ▸ dvd_align _, hnext ▸ le_align _, List.forall_mem_nil _, ?_, ?_, hmax⟩
    · simp only [hnext, Layout.align, Layout.word, show Layout.addressLimit = 4294967296 from rfl] at hbase ⊢
      omega
    · rw [hsize]
      exact Nat.mul_le_mul_right _ hmin
  have hlimit : maxPages < pageSize := by unfold pageSize; omega
  have ht := served.tidy hlimit hstart
  refine ⟨fun size => ?_, fun bs => ?_, fun c => (c.run_cases m).imp_right ?_⟩
  · obtain h | ⟨m', h, halloc⟩ := alloc_cases size m
    · exact .inl (ht.limit ▸ h)
    · exact .inr ⟨_, m', h, ht.aligned, ht.base, ht.behind, halloc.inside, halloc.zeros⟩
  · obtain h | ⟨m₁, m', halloc, -, h, hupdates⟩ := allocStr_cases bs m
    · exact .inl (ht.limit ▸ h)
    · exact .inr ⟨_, m₁, m', halloc, h, hupdates⟩
  · rintro ⟨new, m', h, hleaves⟩
    obtain ⟨ht', hle⟩ := hleaves.tidy hlimit ht
    refine ⟨new, m', h, hle, ?_, hleaves.size, ?_⟩
    · exact Nat.lt_of_le_of_lt ht'.small (by decide)
    · exact Nat.le_trans (Nat.div_le_of_le_mul (Nat.mul_comm _ _ ▸ ht'.size)) (Nat.le_max_left _ _)

/-- A module without pages, of which the heap starts at an odd address. -/
def bareModule : Module :=
  { imports := [], types := [], table := [], functions := [], data := [], minPages := 0, start := none
    main := none, heapBase := 3 }

theorem allocates_forward_bare : ∃ origin m, ofModule bareModule 1 = .ok origin ∧ origin.Served [(8, 5)] m ∧
    ∀ size, alloc size m = .error (.outOfMemory 1) m ∨ ∃ addr m', alloc size m = .ok addr m' ∧ 8 + 5 ≤ addr := by
  refine ⟨_, _, rfl, .done .start (.alloc 5) rfl, fun size => ?_⟩
  have h := @allocates_forward bareModule 1 _ _ _ (by decide) (by decide) rfl (.done .start (.alloc 5) rfl)
  exact (h.1 size).imp_right fun ⟨addr, m', h, _, _, hblocks, _⟩ => ⟨addr, m', h, hblocks _ (List.mem_singleton_self _)⟩

end Memory

end StackScript
