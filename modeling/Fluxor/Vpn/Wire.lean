import Fluxor.Vpn.Protocol
import Mathlib.Algebra.Order.BigOperators.Group.List

/-!
# Packets, credentials and checksums on the wire

What a receiver makes of the bytes that `pkg/vpn` writes: packets, the credentials
of an auth packet, and the ones'-complement sum of a string with its checksum in place.
-/

namespace Fluxor.Vpn

open Support List

/-! ## Packets and credentials -/

def createAuthPacket (username password : Bytes) (timestamp sequence : ℕ) : VPNPacket :=
  createPacket .auth timestamp sequence (username ++ 58 :: password)

theorem parsePacket_serialize {p : VPNPacket} {data : Bytes} (hseq : p.sequence < 2 ^ 32)
    (htime : p.timestamp < 2 ^ 64) (h : p.serialize = some data) :
    parsePacket data = .ok (.ok p) := by
  rw [VPNPacket.serialize] at h
  split at h
  · cases h
  next hsize =>
    cases h
    have hlength : ∀ n, 2 + (4 + (8 + n)) + 1 + 1 = 16 + n := by omega
    have hle : ∀ n k, n ≤ 16 → n ≤ 16 + k := by omega
    have hnum := bigEndian_putBigEndian (show 16 + p.data.length < 256 ^ 2 by omega)
    have hpayload : ∀ d : Bytes, (if 0 < d.length then .ok d else .ok []) =
        (.ok d : Except Fault Bytes) := by
      intro d
      cases d <;> rfl
    simp [parsePacket, index, slice, extractPayload, drop_append, drop_of_length_le, bind, pure,
      Except.bind, Except.pure, hlength, hle, hnum, hpayload,
      bigEndian_putBigEndian (k := 4) hseq, bigEndian_putBigEndian (k := 8) htime]

/-- What is accepted is exactly what can be sent. -/
theorem parsePacket_eq_ok_iff {data : Bytes} {p : VPNPacket} : parsePacket data = .ok (.ok p) ↔
    p.serialize = some data ∧ p.sequence < 2 ^ 32 ∧ p.timestamp < 2 ^ 64 := by
  constructor
  swap
  · rintro ⟨h, hseq, htime⟩
    exact parsePacket_serialize hseq htime h
  intro h
  rw [parsePacket] at h
  split at h
  · cases h
  next hshort =>
    obtain ⟨type, htype, h⟩ := bind_eq_ok.mp h
    obtain ⟨version, hversion, h⟩ := bind_eq_ok.mp h
    obtain ⟨length, hlength, h⟩ := bind_eq_ok.mp h
    obtain ⟨sequence, hsequence, h⟩ := bind_eq_ok.mp h
    obtain ⟨timestamp, htimestamp, h⟩ := bind_eq_ok.mp h
    have hl := length_of_slice hlength
    have hs := length_of_slice hsequence
    have ht := length_of_slice htimestamp
    split at h
    · cases h
    next heq =>
      obtain ⟨payload, hpayload, h⟩ := bind_eq_ok.mp h
      obtain rfl := Except.ok.inj (Except.ok.inj h)
      refine ⟨?_, bigEndian_lt hs, bigEndian_lt ht⟩
      have hdrop : payload = data.drop 16 := by
        rw [extractPayload] at hpayload
        split at hpayload
        · simp [(slice_eq_ok.mp hpayload).2]
        · cases hpayload
          exact (drop_of_length_le (by omega)).symm
      have hlt := bigEndian_lt hl
      have hdata : 16 + payload.length = bigEndian length := by
        rw [hdrop, length_drop]
        omega
      rw [VPNPacket.serialize, if_neg (by dsimp; omega), hdata]
      dsimp only
      rw [putBigEndian_bigEndian hl, putBigEndian_bigEndian hs, putBigEndian_bigEndian ht]
      obtain ⟨-, rfl⟩ := slice_eq_ok.mp hlength
      obtain ⟨-, rfl⟩ := slice_eq_ok.mp hsequence
      obtain ⟨-, rfl⟩ := slice_eq_ok.mp htimestamp
      obtain _ | ⟨a, _ | ⟨b, rest⟩⟩ := data
      · simp at hshort
      · simp at hshort
      cases htype
      cases hversion
      have hjoin : ∀ n k, take k (drop n rest) ++ drop (n + k) rest = drop n rest := by
        intro n k
        rw [← drop_drop, take_append_drop]
      simp [hdrop, hjoin 6 8, hjoin 2 4]

/-- The colons of the password are separators like the first one. -/
theorem splitOn_auth {username : Bytes} (hname : 58 ∉ username) (password : Bytes) :
    (username ++ 58 :: password).splitOn 58 = username :: password.splitOn 58 := by
  have happend := splitOnP_append_cons (p := (· == 58)) username password (beq_self_eq_true 58)
  exact happend.trans (congrArg (· ++ password.splitOn 58) (splitOn_eq_singleton hname))

theorem splitOn_eq_self {password : Bytes} (h : password.splitOn 58 = [password]) :
    58 ∉ password := by
  intro hmem
  obtain ⟨before, after, rfl⟩ := append_of_mem hmem
  have happend := splitOnP_append_cons (p := (· == 58)) before after (beq_self_eq_true 58)
  have hlength := congrArg length (happend.symm.trans h)
  rw [length_append, length_singleton] at hlength
  have hbefore := length_pos_of_ne_nil (splitOnP_ne_nil (· == (58 : UInt8)) before)
  have hafter := length_pos_of_ne_nil (splitOnP_ne_nil (· == (58 : UInt8)) after)
  omega

/-- Credentials are read back exactly if the password has no colon either. -/
theorem parseAuthData_createAuthPacket_iff {username password : Bytes} {timestamp sequence : ℕ}
    (hname : 58 ∉ username) (hfits : username.length + 1 + password.length ≤ 65535 - 16)
    (htime : timestamp < 2 ^ 64) (hseq : sequence < 2 ^ 32) :
    (∃ data p, (createAuthPacket username password timestamp sequence).serialize = some data ∧
      parsePacket data = .ok (.ok p) ∧ parseAuthData p = some (username, password)) ↔
    58 ∉ password := by
  obtain ⟨data, hdata⟩ : ∃ data,
      (createAuthPacket username password timestamp sequence).serialize = some data := by
    refine ⟨_, if_neg ?_⟩
    rw [createAuthPacket, createPacket, length_append, length_cons]
    omega
  have hparse := parsePacket_serialize hseq htime hdata
  have hsplit := splitOn_auth hname password
  constructor
  · rintro ⟨data', p, hdata', hparse', hauth⟩
    cases hdata.symm.trans hdata'
    cases hparse.symm.trans hparse'
    simp only [parseAuthData, createAuthPacket, createPacket, ne_eq, not_true_eq_false, if_false,
      hsplit] at hauth
    split at hauth
    next user pass heq =>
      cases hauth
      exact splitOn_eq_self (cons.inj heq).2
    · cases hauth
  · intro hpassword
    refine ⟨data, _, hdata, hparse, ?_⟩
    simp only [parseAuthData, createAuthPacket, createPacket, hsplit,
      splitOn_eq_singleton hpassword]
    rfl

theorem parseAuthData_createAuthPacket_one : ∃ data p,
    (createAuthPacket [97] [98] 0 0).serialize = some data ∧
      parsePacket data = .ok (.ok p) ∧ parseAuthData p = some ([97], [98]) :=
  (parseAuthData_createAuthPacket_iff (by decide) (by decide) (by decide) (by decide)).mpr
    (by decide)

/-- A password with a colon gives three parts. -/
theorem parseAuthData_colon : ∃ data p, (createAuthPacket [97] [98, 58] 0 0).serialize = some data ∧
    parsePacket data = .ok (.ok p) ∧ parseAuthData p = none :=
  ⟨_, _, rfl, rfl, by decide⟩

/-! ## Checksums -/

/-- The 16-bit words, the last one padded with a zero byte. -/
def words : Bytes → List ℕ
  | hi :: lo :: rest => (256 * hi.toNat + lo.toNat) :: words rest
  | [b] => [256 * b.toNat]
  | [] => []

/-- Addition of 16-bit words with end-around carry. -/
def onesAdd (a b : ℕ) : ℕ :=
  if a + b ≤ 0xffff then a + b else a + b - 0xffff

/-- The ones'-complement sum of a string. -/
def onesSum (b : Bytes) : ℕ :=
  (words b).foldl onesAdd 0

/-- What is left of a sum modulo `0xffff`, where only zero gives zero. -/
def residue (n : ℕ) : ℕ :=
  if n = 0 then 0 else (n - 1) % 0xffff + 1

theorem foldCarry_eq (n : ℕ) : foldCarry n = residue n := by
  fun_induction foldCarry n with
  | case1 n h ih =>
    rw [ih, residue, residue, if_neg (by omega), if_neg (by omega)]
    omega
  | case2 n h =>
    rw [residue]
    split <;> omega

theorem foldl_onesAdd {ws : List ℕ} (h : ∀ w ∈ ws, w ≤ 0xffff) (n : ℕ) :
    ws.foldl onesAdd (residue n) = residue (n + ws.sum) := by
  induction ws generalizing n with
  | nil => rfl
  | cons w ws ih =>
    have hw := h w mem_cons_self
    have hadd : onesAdd (residue n) w = residue (n + w) := by
      simp only [onesAdd, residue]
      split_ifs <;> omega
    rw [foldl_cons, hadd, ih fun w hw => h w (mem_cons_of_mem _ hw), sum_cons, Nat.add_assoc]

theorem words_le (b : Bytes) : ∀ w ∈ words b, w ≤ 0xffff := by
  fun_induction words b with
  | case1 hi lo rest ih =>
    have := hi.toNat_lt
    have := lo.toNat_lt
    exact forall_mem_cons.mpr ⟨by omega, ih⟩
  | case2 b =>
    have := b.toNat_lt
    simp only [mem_singleton]
    omega
  | case3 => simp

theorem words_append {b : Bytes} (h : b.length % 2 = 0) (rest : Bytes) :
    words (b ++ rest) = words b ++ words rest := by
  fun_induction words b with
  | case1 hi lo b ih =>
    rw [length_cons, length_cons] at h
    rw [cons_append, cons_append, words, ih (by omega), cons_append]
  | case2 => cases h
  | case3 => rfl

theorem sumWords_eq {odd : UInt8 → ℕ} {b : Bytes}
    (hodd : b.length % 2 = 0 ∨ odd = fun b => 256 * b.toNat) (sum : ℕ)
    (h : sum + (words b).sum < 2 ^ 32) : sumWords odd b sum = sum + (words b).sum := by
  fun_induction sumWords odd b sum with
  | case1 hi lo rest sum ih =>
    rw [words, sum_cons] at h ⊢
    have hmod : (sum + (256 * hi.toNat + lo.toNat)) % 2 ^ 32 = _ := Nat.mod_eq_of_lt (by omega)
    rw [hmod] at ih ⊢
    rw [ih (hodd.imp_left (by simp; omega)) (by omega), Nat.add_assoc]
  | case2 b sum =>
    obtain rfl := hodd.resolve_left (by simp)
    rw [words, sum_singleton] at h ⊢
    exact Nat.mod_eq_of_lt h
  | case3 => rfl

theorem length_words (b : Bytes) : (words b).length ≤ b.length := by
  fun_induction words b with
  | case1 | case2 => grind
  | case3 => exact le_rfl

theorem sum_words_lt {b : Bytes} (h : b.length ≤ 65535) : (words b).sum < 2 ^ 32 := by
  have hlength := length_words b
  have hle : (words b).sum ≤ (words b).length * 0xffff := sum_le_card_nsmul _ _ (words_le b)
  omega

theorem words_putBigEndian {n : ℕ} (h : n ≤ 0xffff) (rest : Bytes) :
    words (putBigEndian 2 n ++ rest) = n :: words rest := by
  simp [putBigEndian, putUint, words]
  omega

section

variable {b rest s : Bytes} (heven : b.length % 2 = 0) (hs : s = b ++ 0 :: 0 :: rest)
  (hlen : s.length ≤ 65535)

include heven hs hlen

theorem onesSum_store {odd : UInt8 → ℕ} (hodd : s.length % 2 = 0 ∨ odd = fun b => 256 * b.toNat) :
    sumWords odd s 0 = (words s).sum ∧ onesSum (b ++
      (putBigEndian 2 (0xffff - foldCarry (sumWords odd s 0)) ++ rest)) = 0xffff := by
  have hsum := sumWords_eq hodd 0 ((Nat.zero_add _).trans_lt (sum_words_lt hlen))
  rw [Nat.zero_add] at hsum
  have hwords : (words s).sum = (words b).sum + (words rest).sum := by
    simp [hs, words_append heven, words]
  refine ⟨hsum, ?_⟩
  rw [hsum, hwords, foldCarry_eq]
  refine (foldl_onesAdd (words_le _) 0).trans ?_
  rw [words_append heven, words_putBigEndian (Nat.sub_le ..), sum_append, sum_cons]
  simp only [residue]
  split_ifs <;> omega

/-- The checksum at an even offset makes the ones'-complement sum `0xffff`, and
the sums do not wrap around; `ipChecksum` is for strings of even length. -/
theorem onesSum_checksum : (words s).sum < 2 ^ 32 ∧
    (s.length % 2 = 0 → sumWords (fun _ => 0) s 0 = (words s).sum ∧
      onesSum (b ++ (putBigEndian 2 (ipChecksum s) ++ rest)) = 0xffff) ∧
    sumWords (fun b => 256 * b.toNat) s 0 = (words s).sum ∧
      onesSum (b ++ (putBigEndian 2 (icmpChecksum s) ++ rest)) = 0xffff :=
  ⟨sum_words_lt hlen, fun h => onesSum_store heven hs hlen (.inl h),
    onesSum_store heven hs hlen (.inr rfl)⟩

end

theorem onesSum_checksum_odd : onesSum ([1, 2] ++ (putBigEndian 2 (icmpChecksum [1, 2, 0, 0, 3]) ++
    [3])) = 0xffff :=
  (onesSum_checksum (by decide) rfl (by decide)).2.2.2

end Fluxor.Vpn
