import Fluxor.Support.GoInt
import Fluxor.Support.LittleEndian

/-!
# The commands of the mini Redis server

`parse_resp_command` of `base/cpp_server/mini_redis_server.cpp`. The function goes through
the buffer once; what it looks for next is a `Parser`. Before it has seen an argument it
reserves room for as many as the header announces, and `reserve` may throw.
-/

namespace Fluxor.MiniRedis

open Support List

/-- The function returns a result, or `reserve` throws an exception through it. -/
inductive RespParseResult
  | incomplete | error (text : String) | ok (consumed : ℕ) (args : List Bytes) | throws
  deriving DecidableEq

/-- The bytes before the first CRLF and those behind it. -/
def scanCrlf : Bytes → Option (Bytes × Bytes)
  | 13 :: 10 :: rest => some ([], rest)
  | c :: rest => (scanCrlf rest).map fun (line, rest) => (c :: line, rest)
  | [] => none

/-- The loop of `parse_int64_ascii`. An overflow wraps around. -/
def parseDigits (line : Bytes) (v : ℤ) : Option ℤ :=
  line.foldlM (fun v c =>
    if c < 48 ∨ 57 < c then none else some (int64 (v * 10 + (c.toNat - 48)))) v

def parseInt64Ascii : Bytes → Option ℤ
  | [] | [45] => none
  | 45 :: rest => (parseDigits rest 0).map fun v => int64 (-v)
  | line => parseDigits line 0

/-- What is done at a position: return or throw, or look at the next byte, at the line that ends
with the next CRLF or at the next `n` bytes. -/
inductive Parser
  | error (text : String) | done (args : List Bytes) | throw | peek (next : UInt8 → Parser)
  | line (next : Bytes → Parser) | bytes (n : ℕ) (next : Bytes → Parser)

/-- At position `pos`, where the buffer goes on with the given bytes. -/
def Parser.run : Parser → ℕ → Bytes → RespParseResult
  | error text, _, _ => .error text
  | done args, pos, _ => .ok pos args
  | throw, _, _ => .throws
  | peek next, pos, buf =>
    match buf with
    | [] => .incomplete
    | c :: _ => (next c).run pos buf
  | line next, pos, buf =>
    match scanCrlf buf with
    | none => .incomplete
    | some (l, rest) => (next l).run (pos + l.length + 2) rest
  | bytes n next, pos, buf =>
    if buf.length < n then .incomplete else (next (buf.take n)).run (pos + n) (buf.drop n)

/-- A line of one byte and a number, which is not below `least`. -/
def number (least : ℤ) (text : String) (next : ℤ → Parser) : Parser :=
  .line fun line =>
    match (parseInt64Ascii (line.drop 1)).filter (least ≤ ·) with
    | none => .error text
    | some n => next n

def bulks : ℕ → List Bytes → Parser
  | 0, args => .done args
  | n + 1, args => .peek fun c =>
    if c ≠ 36 then .error "ERR Protocol error: expected '$'"
    else number (-1) "ERR Protocol error: invalid bulk length" fun len =>
      if len = -1 then bulks n (args ++ [[]])
      else .bytes (len.toNat + 2) fun b =>
        if b.drop len.toNat ≠ [13, 10] then
          .error "ERR Protocol error: missing CRLF after bulk string"
        else bulks n (args ++ [b.take len.toNat])

/-- The `max_size` of a vector of strings, each of 32 bytes. -/
def maxSize : ℕ := (2 ^ 63 - 1) / 32

/-- `reserve(n)` succeeds: `n` is not above `max_size` (else `std::length_error`), and the
allocator has room for `n` strings (else `std::bad_alloc`). -/
def Reserves (room n : ℕ) : Prop :=
  n ≤ maxSize ∧ n ≤ room

instance (room n : ℕ) : Decidable (Reserves room n) :=
  inferInstanceAs (Decidable (_ ∧ _))

variable (room : ℕ)

def command : Parser := .peek fun c =>
  if c = 42 then
    number 0 "ERR Protocol error: invalid multibulk length" fun n =>
      if Reserves room n.toNat then bulks n.toNat [] else .throw
  else .line fun line => .done ((line.splitOnP fun c => c == 32 || c == 9).filter (· ≠ []))

/-- The parser, where `reserve` finds room for `room` strings. -/
def parseRespCommand : Bytes → RespParseResult := (command room).run 0

theorem scanCrlf_append {p line rest : Bytes} (h : scanCrlf p = some (line, rest)) (t : Bytes) :
    scanCrlf (p ++ t) = some (line, rest ++ t) ∧ p.length = line.length + 2 + rest.length := by
  fun_induction scanCrlf p generalizing line with
  | case1 =>
    cases h
    exact ⟨rfl, by simp; omega⟩
  | case2 c p hne ih =>
    obtain ⟨⟨line', rest'⟩, hp, heq⟩ := Option.map_eq_some_iff.mp h
    cases heq
    obtain ⟨happend, hlen⟩ := ih hp
    refine ⟨?_, ?_⟩
    · rw [cons_append, scanCrlf, happend]
      · rfl
      rintro rest rfl heq
      cases p with
      | nil => cases hp
      | cons d p => exact hne p rfl (by rw [(cons.inj heq).1])
    · rw [length_cons, length_cons]
      omega
  | case3 => cases h

/-- An answer other than `incomplete` is about bytes that are there, and more bytes do
not change it. -/
theorem Parser.run_final (q : Parser) (pos : ℕ) (p : Bytes) :
    q.run pos p = .incomplete ∨ (∀ t, q.run pos (p ++ t) = q.run pos p) ∧
      ∀ c args, q.run pos p = .ok c args → c ≤ pos + p.length := by
  induction q generalizing pos p with
  | error | throw => exact .inr ⟨fun _ => rfl, nofun⟩
  | done args =>
    refine .inr ⟨fun _ => rfl, ?_⟩
    rintro c args ⟨⟩
    omega
  | peek next ih =>
    cases p with
    | nil => exact .inl rfl
    | cons c p => exact ih c pos (c :: p)
  | line next ih =>
    simp only [run]
    cases hp : scanCrlf p with
    | none => exact .inl rfl
    | some q =>
      obtain ⟨line, rest⟩ := q
      have hlen := (scanCrlf_append hp []).2
      simp only [fun t => (scanCrlf_append hp t).1]
      refine (ih line (pos + line.length + 2) rest).imp_right fun h => ⟨h.1, fun c args hc => ?_⟩
      have hle := h.2 c args hc
      omega
  | bytes n next ih =>
    simp only [run]
    by_cases hshort : p.length < n
    · exact .inl (if_pos hshort)
    have hn : n ≤ p.length := by omega
    have hlong : ∀ t, ¬(p ++ t).length < n := by
      intro t
      rw [length_append]
      omega
    simp only [if_neg hshort, if_neg (hlong _), take_append_of_le_length hn,
      drop_append_of_le_length hn]
    refine (ih (p.take n) (pos + n) (p.drop n)).imp_right fun h => ⟨h.1, fun c args hc => ?_⟩
    have hle := h.2 c args hc
    rw [length_drop] at hle
    omega

def digit (d : ℕ) : UInt8 := UInt8.ofNat (48 + d)

def decimal (n : ℕ) : Bytes :=
  if n < 10 then [digit n] else decimal (n / 10) ++ [digit (n % 10)]

def header (c : UInt8) (n : ℕ) : Bytes := c :: decimal n ++ [13, 10]

def bulk (a : Bytes) : Bytes := header 36 a.length ++ (a ++ [13, 10])

/-- The array of bulk strings that a client sends. -/
def encode (args : List Bytes) : Bytes := header 42 args.length ++ args.flatMap bulk

theorem toNat_digit {d : ℕ} (hd : d < 10) : (digit d).toNat = 48 + d := by
  rw [digit, UInt8.toNat_ofNat']
  omega

variable {n : ℕ} {c : UInt8}

theorem le_of_mem_decimal (hc : c ∈ decimal n) : 48 ≤ c.toNat := by
  fun_induction decimal n with
  | case1 n hn =>
    rw [mem_singleton.mp hc, toNat_digit hn]
    omega
  | case2 n hn ih =>
    rcases mem_append.mp hc with hc | hc
    · exact ih hc
    · rw [mem_singleton.mp hc, toNat_digit (by omega)]
      omega

theorem parseDigits_digit {d : ℕ} (hd : d < 10) (v : ℤ) :
    parseDigits [digit d] v = some (int64 (v * 10 + d)) := by
  have hrange : ¬(digit d < 48 ∨ 57 < digit d) := by
    simp [UInt8.lt_iff_toNat_lt, toNat_digit hd]
    omega
  simp [parseDigits, hrange, toNat_digit hd]

theorem parseDigits_decimal (hn : n < 2 ^ 63) : parseDigits (decimal n) 0 = some (n : ℤ) := by
  fun_induction decimal n with
  | case1 n hlt =>
    rw [parseDigits_digit hlt, int64_eq_self (by omega) (by omega), zero_mul, zero_add]
  | case2 n hge ih =>
    rw [parseDigits, foldlM_append, ← parseDigits, ih (by omega)]
    refine (parseDigits_digit (by omega) _).trans ?_
    rw [int64_eq_self (by omega) (by omega)]
    congr 1
    omega

theorem parseInt64Ascii_decimal (hn : n < 2 ^ 63) :
    parseInt64Ascii (decimal n) = some (n : ℤ) := by
  rw [← parseDigits_decimal hn]
  cases hdec : decimal n with
  | nil =>
    rw [decimal] at hdec
    split at hdec <;> simp at hdec
  | cons c rest =>
    have hc : c ≠ 45 := by
      rintro rfl
      have hle := le_of_mem_decimal (hdec ▸ mem_cons_self)
      contradiction
    rw [parseInt64Ascii] <;> simp [hc]

theorem scanCrlf_line {line : Bytes} (hline : 13 ∉ line) (rest : Bytes) :
    scanCrlf (line ++ 13 :: 10 :: rest) = some (line, rest) := by
  induction line with
  | nil => rfl
  | cons c line ih =>
    rw [cons_append, scanCrlf, ih fun h => hline (mem_cons_of_mem c h)]
    · rfl
    · grind

theorem run_number (hc : 13 ≠ c) {least : ℤ} (hleast : least ≤ 0) (text : String)
    (next : ℤ → Parser) (hn : n < 2 ^ 63) (pos : ℕ) (rest : Bytes) :
    (number least text next).run pos (header c n ++ rest) =
      (next n).run (pos + (header c n).length) rest := by
  have hline : 13 ∉ c :: decimal n := by
    intro h
    have hle := le_of_mem_decimal ((mem_cons.mp h).resolve_left hc)
    contradiction
  have hscan : scanCrlf (header c n ++ rest) = some (c :: decimal n, rest) := by
    rw [header, append_assoc]
    exact scanCrlf_line hline rest
  have hfilter : (some (n : ℤ)).filter (least ≤ ·) = some (n : ℤ) := by
    simp
    omega
  simp only [number, Parser.run, hscan, drop_one, tail_cons, parseInt64Ascii_decimal hn, hfilter]
  simp [header, add_assoc]

theorem run_bulks {args : List Bytes} (hargs : ∀ a ∈ args, a.length < 2 ^ 63) (pos : ℕ)
    (acc : List Bytes) (tail : Bytes) :
    (bulks args.length acc).run pos (args.flatMap bulk ++ tail) =
      .ok (pos + (args.flatMap bulk).length) (acc ++ args) := by
  induction args generalizing pos acc with
  | nil => simp [bulks, Parser.run]
  | cons a args ih =>
    rw [flatMap_cons, bulk, append_assoc, append_assoc]
    have hleast : (-1 : ℤ) ≤ 0 := by decide
    refine (run_number (c := 36) (by decide) hleast _ _ (hargs a mem_cons_self) pos _).trans ?_
    rw [if_neg (by omega), Int.toNat_natCast, Parser.run, if_neg (by simp), take_left' (by simp),
      drop_left, take_left, if_neg (by simp), drop_left' (by simp),
      ih fun b hb => hargs b (mem_cons_of_mem a hb)]
    simp [bulk]
    omega

section

variable {args : List Bytes}

variable (args) in
theorem parseRespCommand_header (hlen : args.length < 2 ^ 63) (rest : Bytes) :
    parseRespCommand room (header 42 args.length ++ rest) =
      if Reserves room args.length then
        (bulks args.length []).run (header 42 args.length).length rest else .throws := by
  refine (run_number (c := 42) (by decide) le_rfl _ _ hlen 0 _).trans ?_
  rw [Int.toNat_natCast, zero_add]
  split <;> rfl

variable (args) in
/-- An encoding is read as what was encoded, and no part of it is taken for a command. -/
def SelfDelimiting : Prop :=
  (∀ tail, parseRespCommand room (encode args ++ tail) = .ok (encode args).length args) ∧
    ∀ p, p <+: encode args → p ≠ encode args → parseRespCommand room p = .incomplete

/-- The encoding is self-delimiting exactly if there is room for the arguments it announces. -/
theorem selfDelimiting_iff (hlen : args.length < 2 ^ 63) (hargs : ∀ a ∈ args, a.length < 2 ^ 63) :
    SelfDelimiting room args ↔ Reserves room args.length := by
  constructor
  · rintro ⟨hparse, -⟩
    by_contra hthrows
    have hp := hparse []
    rw [encode, append_assoc, parseRespCommand_header room args hlen, if_neg hthrows] at hp
    cases hp
  intro hroom
  have hparse : ∀ tail,
      parseRespCommand room (encode args ++ tail) = .ok (encode args).length args := by
    intro tail
    rw [encode, append_assoc, parseRespCommand_header room args hlen, if_pos hroom, run_bulks hargs,
      length_append, nil_append]
  refine ⟨hparse, ?_⟩
  rintro p ⟨t, ht⟩ hne
  refine ((command room).run_final 0 p).resolve_right ?_
  rintro ⟨happend, hle⟩
  have hp := hparse []
  rw [append_nil, ← ht] at hp
  have hlength := hle _ _ ((happend t).symm.trans hp)
  rw [length_append] at hlength
  refine hne ?_
  rw [← ht, length_eq_zero_iff.mp (by omega : t.length = 0), append_nil]

end

/-- Two arguments, one of them a line end, and room for two. -/
theorem selfDelimiting_crlf : SelfDelimiting 2 [[13, 10], []] :=
  (selfDelimiting_iff 2 (by decide) (by decide)).mpr (by decide)

/-- The header of 300000000000000000 empty strings makes `reserve` throw. -/
theorem parseRespCommand_throws : ∃ args : List Bytes, args ≠ [] ∧
    header 42 300000000000000000 <+: encode args ∧ header 42 300000000000000000 ≠ encode args ∧
      ∀ room, parseRespCommand room (header 42 300000000000000000) = .throws := by
  have hlen : (replicate 300000000000000000 ([] : Bytes)).length = 300000000000000000 :=
    length_replicate
  have hmore : replicate 300000000000000000 ([] : Bytes) =
      [] :: replicate 299999999999999999 [] := replicate_succ
  have hne : (replicate 300000000000000000 ([] : Bytes)) ≠ [] := by
    rw [hmore]
    exact cons_ne_nil _ _
  refine ⟨_, hne, ?_, ?_, ?_⟩
  · rw [encode, hlen]
    exact prefix_append _ _
  · intro heq
    rw [encode, hlen] at heq
    have hnil := append_right_eq_self.mp heq.symm
    rw [hmore, flatMap_cons] at hnil
    cases hnil
  · intro room
    have hthrows : ¬Reserves room 300000000000000000 := by
      rintro ⟨hmax, -⟩
      rw [maxSize] at hmax
      omega
    have hheader := parseRespCommand_header room (replicate 300000000000000000 [])
      (by rw [hlen]; decide) []
    rwa [hlen, append_nil, if_neg hthrows] at hheader

end Fluxor.MiniRedis
