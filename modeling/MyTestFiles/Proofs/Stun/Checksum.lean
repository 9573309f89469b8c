import MyTestFiles.Lib.OnesComplement
import MyTestFiles.Stun.SanityCheck

/-!
# `MyTestFiles.Proofs.Stun.Checksum`: the arithmetic of the checksum helper

The helper adds the words of the pseudo-header and of the datagram to an `int`, in the byte
order of the host, and folds the carries at the end. `unfoldedSum` is the accumulator before
the folds, `foldedSum` after them and `accumulated` what each addition adds up to. With a
header of five words the datagram of a frame is short enough for the `int`
(`sum_lt_of_frame`), and `udpCksum_arithmetic` puts the results together.

* The first fold adds the upper half of the sum to the lower half. The second adds the carry of
  that sum and does not clear it, so the folded sum may have 17 bits (`foldedSum_carry_left`).
* The result is cut to 16 bits after it was negated. A carry that was left is cut off with it, and
  so the results here are about the folded sum modulo 65536.
* `udpCksum_arithmetic` has the bound on the accumulator, the sum that is folded and the value of
  the checksum, for every frame that is long enough for its headers.
* The sum over the words in the order of the host is compared with the sum over the words in
  network order by `Lib.OnesComplement`, which is where the byte order goes away.
-/

set_option autoImplicit false

namespace MyTestFiles.Proofs.Stun

open MyTestFiles.Lib
open MyTestFiles.Lib.OnesComplement
open MyTestFiles.Stun

/-- The addresses, the protocol and the UDP length, in network order. -/
def pseudoHeader (f : List UInt8) (udpLen : Nat) : List UInt8 :=
  (f.drop 12).take 8 ++ [0, 17] ++ [UInt8.ofNat (udpLen / 256), UInt8.ofNat udpLen]

section Checksum

/-- No word is left. -/
theorem inCksumLoop_nil (sum : Int) : inCksumLoop [] 0 sum = ([], 0, sum) := rfl

/-- One byte is left over. -/
theorem inCksumLoop_one (b : UInt8) (sum : Int) : inCksumLoop [b] 1 sum = ([b], 1, sum) := rfl

/-- A pass adds a word of two bytes, the low one first. -/
theorem inCksumLoop_two (a b : UInt8) (rest : List UInt8) (sum : Int) :
    inCksumLoop (a :: b :: rest) (rest.length + 2) sum =
      inCksumLoop rest rest.length (int32 (sum + (a.toNat + 256 * b.toNat : Nat))) := rfl

/-- The odd last byte: on a little-endian host `htons(b << 8)` is `b`. -/
theorem htons_load8 (b : UInt8) : htons (load8 [b] 0 * 256) = b.toNat := by
  have hb := b.toNat_lt
  simp only [htons, load8, List.getD_cons_zero]
  omega

/-- The sum before the carries are folded. -/
def unfoldedSum (w : List UInt8) (sum : Int) : Int :=
  let (w, nleft, sum) := inCksumLoop w w.length sum
  if nleft = 1 then int32 (sum + htons (load8 w 0 * 256)) else sum

/-- The accumulator is the sum of the words, while that is an `int`. -/
theorem unfoldedSum_eq (w : List UInt8) {sum : Nat}
    (h : sum + (littleEndian w).sum < 2147483648) :
    unfoldedSum w sum = (sum + (littleEndian w).sum : Nat) := by
  induction w using littleEndian.induct generalizing sum with
  | case1 => simp [unfoldedSum, inCksumLoop_nil, littleEndian]
  -- the last byte of an odd number
  | case2 b =>
      simp only [littleEndian, List.sum_singleton] at h ⊢
      have hint : int32 ((sum : Int) + b.toNat) = (sum + b.toNat : Nat) := by
        rw [int32_of_range (by omega) (by omega)]
        rfl
      have hrun : unfoldedSum [b] sum = int32 (sum + htons (load8 [b] 0 * 256)) := by
        simp [unfoldedSum, inCksumLoop_one]
      rw [hrun, htons_load8, hint]
  | case3 a b rest ih =>
      simp only [littleEndian, List.sum_cons] at h ⊢
      have hadd : int32 ((sum : Int) + (a.toNat + 256 * b.toNat : Nat)) =
          (sum + (a.toNat + 256 * b.toNat) : Nat) := by
        rw [int32_of_range (by omega) (by omega)]
        omega
      -- one pass takes two bytes
      have hloop : inCksumLoop (a :: b :: rest) (rest.length + 2) sum =
          inCksumLoop rest rest.length (sum + (a.toNat + 256 * b.toNat) : Nat) := by
        rw [inCksumLoop_two, hadd]
      have hstep : unfoldedSum (a :: b :: rest) sum =
          unfoldedSum rest (sum + (a.toNat + 256 * b.toNat) : Nat) := by
        show (let (w, nleft, sum) := inCksumLoop (a :: b :: rest) (rest.length + 2) sum
          if nleft = 1 then int32 (sum + htons (load8 w 0 * 256)) else sum) = _
        rw [hloop, unfoldedSum]
      rw [hstep, ih (by omega), Nat.add_assoc]

/-- The accumulator after the two folds. -/
def foldedSum (w : List UInt8) (sum : Int) : Int :=
  let sum := unfoldedSum w sum
  let sum := sum / 65536 + sum % 65536
  sum + sum / 65536

/-- The checksum is the complement of the folded sum, cut to 16 bits. -/
theorem inCksum_eq (w : List UInt8) (csum : Int) :
    inCksum w w.length csum = ((-foldedSum w csum - 1) % 65536).toNat := by
  simp only [inCksum, foldedSum, unfoldedSum]

section Words
variable {sp w : List UInt8}

/-- The words of the pseudo-header and of the datagram are those of the two together. -/
theorem sum_append (hsp : sp.length % 2 = 0) :
    (littleEndian (sp ++ w)).sum = (littleEndian sp).sum + (littleEndian w).sum := by
  rw [littleEndian_append hsp, List.sum_append]

/-- After two folds the low half is the one's complement sum of all the words. -/
theorem foldedSum_mod (hsp : sp.length % 2 = 0) (h : (littleEndian (sp ++ w)).sum < 2147483648) :
    foldedSum w (littleEndian sp).sum % 65536 = total (littleEndian (sp ++ w)) := by
  have hsum := sum_append (w := w) hsp
  have hrun : unfoldedSum w (littleEndian sp).sum = (littleEndian (sp ++ w)).sum := by
    rw [hsum]
    exact unfoldedSum_eq w (by omega)
  rw [← foldCarries_eq_total (fun _ => lt_of_mem_littleEndian) h, foldedSum, hrun]
  push_cast
  rfl

/-- One carry at most is left above the low half. -/
theorem foldedSum_range (h : (littleEndian sp).sum + (littleEndian w).sum < 2147483648) :
    0 ≤ foldedSum w (littleEndian sp).sum ∧ foldedSum w (littleEndian sp).sum < 2 * 65536 := by
  rw [foldedSum, unfoldedSum_eq w h]
  omega

/-- The answer is the complement of the low half. -/
theorem inCksum_eq_total (hsp : sp.length % 2 = 0)
    (h : (littleEndian (sp ++ w)).sum < 2147483648) :
    inCksum w w.length (littleEndian sp).sum = 65535 - total (littleEndian (sp ++ w)) := by
  have hmod := foldedSum_mod hsp h
  rw [inCksum_eq]
  omega

/-- What each addition of `in_cksum` adds up to, before it is stored in the `int`. -/
def accumulated (w : List UInt8) (nleft : Nat) (sum : Int) : List Int :=
  match nleft with
  | nleft + 2 =>
      (sum + load16 w 0) :: accumulated (w.drop 2) nleft (int32 (sum + load16 w 0))
  | 1 => [sum + htons (load8 w 0 * 256)]
  | 0 => []

/-- No addition leaves the `int` when the sum of all the words fits. -/
theorem accumulated_range (w : List UInt8) {start : Nat}
    (h : start + (littleEndian w).sum < 2147483648) :
    ∀ sum ∈ accumulated w w.length start, 0 ≤ sum ∧ sum ≤ intMax := by
  induction w using littleEndian.induct generalizing start with
  | case1 =>
      intro sum hsum
      cases hsum
  | case2 b =>
      intro sum hsum
      simp only [littleEndian, List.sum_singleton] at h
      rw [show accumulated [b] [b].length start = [(start : Int) + htons (load8 [b] 0 * 256)]
        from rfl, htons_load8, List.mem_singleton] at hsum
      unfold intMax
      omega
  | case3 a b rest ih =>
      intro sum hsum
      simp only [littleEndian, List.sum_cons] at h
      have hadd : int32 ((start : Int) + (a.toNat + 256 * b.toNat : Nat)) =
          (start + (a.toNat + 256 * b.toNat) : Nat) := by
        rw [int32_of_range (by omega) (by omega)]
        omega
      -- the first addition, and then those of the rest
      have hrun : accumulated (a :: b :: rest) (a :: b :: rest).length start =
          ((start : Int) + (a.toNat + 256 * b.toNat : Nat)) ::
            accumulated rest rest.length (start + (a.toNat + 256 * b.toNat) : Nat) := by
        rw [← hadd]
        rfl
      rw [hrun] at hsum
      rcases List.mem_cons.mp hsum with rfl | hrest
      · unfold intMax
        omega
      · exact ih (by omega) sum hrest

end Words

/-! ### The pseudo-header -/

variable {ip up : List UInt8} {udpLen : Nat}

/-- A copy of bytes that are there. -/
theorem memcpy_eq_take {src : List UInt8} {n : Nat} (h : n ≤ src.length) :
    memcpy src n = src.take n := by
  apply List.ext_getElem
  · simp [memcpy, h]
  · intro i hi hi'
    simp only [memcpy, List.length_map, List.length_range] at hi
    have hlt : i < src.length := by omega
    simp [memcpy, List.getD_eq_getElem?_getD, List.getElem?_eq_getElem hlt]

/-- The fields that the helper copies are the pseudo-header. -/
theorem phu_eq_pseudoHeader (hip : 20 ≤ ip.length) :
    phu ip udpLen = pseudoHeader ip udpLen := by
  have hlow : UInt8.ofNat (htons udpLen) = UInt8.ofNat (udpLen / 256) := by
    apply UInt8.toNat_inj.mp
    simp only [UInt8.toNat_ofNat', htons]
    omega
  have hhigh : UInt8.ofNat (htons udpLen / 256) = UInt8.ofNat udpLen := by
    have hdiv : htons udpLen / 256 = udpLen % 256 := by
      rw [htons, Nat.add_comm, Nat.add_mul_div_right _ _ (by decide),
        Nat.div_eq_of_lt (Nat.mod_lt _ (by decide)), Nat.zero_add]
    apply UInt8.toNat_inj.mp
    rw [hdiv]
    simp only [UInt8.toNat_ofNat']
    omega
  have haddresses : (ip.drop 12).take 8 = (ip.drop 12).take 4 ++ (ip.drop 16).take 4 := by
    rw [show 8 = 4 + 4 from rfl, List.take_add, List.drop_drop]
  rw [phu, pseudoHeader, Iphdr.saddr, Iphdr.daddr, memcpy_eq_take (by simp; omega),
    memcpy_eq_take (by simp; omega), haddresses, bytes16, hlow, hhigh]
  rfl

/-- The pseudo-header has 12 bytes. -/
theorem length_pseudoHeader (hip : 20 ≤ ip.length) : (pseudoHeader ip udpLen).length = 12 := by
  simp [pseudoHeader]
  omega

/-- The six words that are added up by hand. -/
theorem sum_sp : ∀ {sp : List UInt8}, sp.length = 12 →
    load16 sp 0 + load16 sp 2 + load16 sp 4 + load16 sp 6 + load16 sp 8 + load16 sp 10 =
      (littleEndian sp).sum
  | [_, _, _, _, _, _, _, _, _, _, _, _], _ => by
      simp [load16, load8, littleEndian, Nat.add_assoc]

/-- `sp[0]+sp[1]+sp[2]+sp[3]+sp[4]+sp[5]` -/
def pseudoSum (ip : List UInt8) (udpLen : Nat) : Nat :=
  let sp := phu ip udpLen
  load16 sp 0 + load16 sp 2 + load16 sp 4 + load16 sp 6 + load16 sp 8 + load16 sp 10

/-- The sum of the pseudo-header is that of its words. -/
theorem pseudoSum_eq (hip : 20 ≤ ip.length) :
    pseudoSum ip udpLen = (littleEndian (pseudoHeader ip udpLen)).sum := by
  rw [pseudoSum, phu_eq_pseudoHeader hip, sum_sp (length_pseudoHeader hip)]

/-- Behind a header of five words the checksum is over the pseudo-header and the datagram. -/
theorem udpCksum_eq (hihl : Iphdr.ihl ip = 5) :
    udpCksum ip up udpLen = inCksum up udpLen (pseudoSum ip udpLen) :=
  if_pos hihl

/-- The words of a datagram that fits a frame behind 20 bytes fit an `int`. -/
theorem sum_lt_of_frame (hip : 20 ≤ ip.length) (hlen : up.length < 65516) :
    (littleEndian (pseudoHeader ip udpLen ++ up)).sum < 2147483648 := by
  have hbound := sum_littleEndian_le (pseudoHeader ip udpLen ++ up)
  rw [List.length_append, length_pseudoHeader hip] at hbound
  omega

/-- With a header of five words the helper gives the complement of the sum of all words. -/
theorem udpCksum_eq_total (hihl : Iphdr.ihl ip = 5) (hip : 20 ≤ ip.length)
    (hlen : up.length < 65516) :
    udpCksum ip up up.length = 65535 - total (littleEndian (pseudoHeader ip up.length ++ up)) := by
  rw [udpCksum_eq hihl, pseudoSum_eq hip]
  exact inCksum_eq_total (by rw [length_pseudoHeader hip]) (sum_lt_of_frame hip hlen)

/-- With a header of five words the helper checks the checksum. -/
theorem udpCksum_eq_zero (hihl : Iphdr.ihl ip = 5) (hip : 20 ≤ ip.length)
    (hup : up.length = udpLen) (hlen : udpLen < 65516) :
    udpCksum ip up udpLen = 0 ↔ total (bigEndian (pseudoHeader ip udpLen ++ up)) = 0xffff := by
  subst hup
  rw [udpCksum_eq_total hihl hip hlen, total_bigEndian_eq_allOnes]
  exact complement_total_eq_zero fun _ => lt_of_mem_littleEndian

/-- For every datagram that a frame can hold behind a header of five words:

1. the additions stay in the `int`, the sum of the pseudo-header included;
2. after the two folds the low 16 bits are the one's complement sum of all words;
3. one carry at most is left above them, which the conversion to `uint16_t` drops;
4. so the answer is the complement of that sum;
5. and it is 0 just for a right checksum. -/
theorem udpCksum_arithmetic (ip up : List UInt8) (hihl : Iphdr.ihl ip = 5)
    (hip : 20 ≤ ip.length) (hframe : 20 + up.length < 65536) :
    (∀ sum ∈ (pseudoSum ip up.length : Int) :: accumulated up up.length (pseudoSum ip up.length),
      0 ≤ sum ∧ sum ≤ intMax) ∧
    foldedSum up (pseudoSum ip up.length) % 65536 =
      total (littleEndian (pseudoHeader ip up.length ++ up)) ∧
    (0 ≤ foldedSum up (pseudoSum ip up.length) ∧
      foldedSum up (pseudoSum ip up.length) < 2 * 65536) ∧
    udpCksum ip up up.length = 65535 - total (littleEndian (pseudoHeader ip up.length ++ up)) ∧
    (udpCksum ip up up.length = 0 ↔
      total (bigEndian (pseudoHeader ip up.length ++ up)) = 0xffff) := by
  have hlen : up.length < 65516 := by omega
  have heven : (pseudoHeader ip up.length).length % 2 = 0 := by rw [length_pseudoHeader hip]
  have hsum : (littleEndian (pseudoHeader ip up.length ++ up)).sum < 2147483648 :=
    sum_lt_of_frame hip hlen
  have hparts := sum_append (w := up) heven
  rw [pseudoSum_eq hip]
  refine ⟨?_, foldedSum_mod heven hsum, foldedSum_range (by omega),
    udpCksum_eq_total hihl hip hlen, udpCksum_eq_zero hihl hip rfl hlen⟩
  intro sum hmem
  rcases List.mem_cons.mp hmem with rfl | hadded
  · unfold intMax
    omega
  · exact accumulated_range up (by omega) sum hadded

/-- A header of five words between two addresses. -/
def headerBetween (saddr daddr : List UInt8) : List UInt8 :=
  [0x45, 0, 0, 29, 0, 0, 0x40, 0, 64, 17, 0, 0] ++ saddr ++ daddr

/-- A datagram of nine bytes, whose last word is half a word, with its right checksum. -/
theorem udpCksum_arithmetic_odd :
    udpCksum (headerBetween [192, 168, 0, 1] [192, 168, 0, 2])
        [0x0d, 0x96, 0x0d, 0x96, 0, 9, 0x5c, 0x5c, 7] 9 = 0 ∧
      total (bigEndian ([192, 168, 0, 1, 192, 168, 0, 2, 0, 17, 0, 9] ++
        [0x0d, 0x96, 0x0d, 0x96, 0, 9, 0x5c, 0x5c, 7])) = 0xffff := by
  have h := udpCksum_arithmetic (headerBetween [192, 168, 0, 1] [192, 168, 0, 2])
    [0x0d, 0x96, 0x0d, 0x96, 0, 9, 0x5c, 0x5c, 7] (by decide) (by decide) (by decide)
  have hzero : udpCksum (headerBetween [192, 168, 0, 1] [192, 168, 0, 2])
      [0x0d, 0x96, 0x0d, 0x96, 0, 9, 0x5c, 0x5c, 7] 9 = 0 := by decide
  exact ⟨hzero, h.2.2.2.2.mp hzero⟩

/-- The two folds do not always reduce the accumulator to 16 bits. Between two zero addresses
this datagram of eight bytes adds up to `0x1ffff`, which the first fold makes `0x10000` and the
second one `0x10001`. -/
theorem foldedSum_carry_left :
    Iphdr.ihl (headerBetween [0, 0, 0, 0] [0, 0, 0, 0]) = 5 ∧
      unfoldedSum [0xff, 0xff, 0x00, 0xdf, 0x00, 0x08, 0x00, 0x00]
        (pseudoSum (headerBetween [0, 0, 0, 0] [0, 0, 0, 0]) 8) = 0x1ffff ∧
      foldedSum [0xff, 0xff, 0x00, 0xdf, 0x00, 0x08, 0x00, 0x00]
        (pseudoSum (headerBetween [0, 0, 0, 0] [0, 0, 0, 0]) 8) = 65537 ∧
      ¬foldedSum [0xff, 0xff, 0x00, 0xdf, 0x00, 0x08, 0x00, 0x00]
        (pseudoSum (headerBetween [0, 0, 0, 0] [0, 0, 0, 0]) 8) < 65536 := by
  decide

end Checksum

end MyTestFiles.Proofs.Stun
