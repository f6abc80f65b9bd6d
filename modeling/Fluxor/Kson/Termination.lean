import Fluxor.Kson.Parser

/-!
# When parsing terminates

Every iteration of the document and object loops returns or gets closer to the end
of the input. The array loop may not: an unquoted value stops at once at a closing
brace or a comment, which that loop does not handle, so it collects empty strings
forever. `Parse` returns if and only if the parser reaches no such array element.
-/

namespace Fluxor.Kson

open Support List Kson.Parser Nat

namespace Parser

def left (p : Parser) : ℕ := p.rest.length

variable {env : Env} {p p' : Parser} {c : UInt8} {key rest : Bytes}

theorem length_lt_left (hrest : p.rest = c :: rest) : rest.length < p.left := by
  rw [left, hrest]
  exact lt_succ_self _

theorem left_skipBlanks_le (p : Parser) : p.skipBlanks.left ≤ p.left :=
  (dropWhile_suffix _).length_le

theorem left_skipInline_le (p : Parser) : p.skipInline.left ≤ p.left :=
  (dropWhile_suffix _).length_le

theorem left_skipToEOL_le (p : Parser) : p.skipToEOL.left ≤ p.left := (dropWhile_suffix _).length_le

theorem left_skipToEOL_lt (hrest : p.rest = c :: rest) (hc : c ≠ '\n'.toUInt8) :
    p.skipToEOL.left < p.left := by
  have hdrop : p.skipToEOL.rest = rest.dropWhile (· ≠ '\n'.toUInt8) := by
    simp [skipToEOL, hrest, hc]
  rw [left, left, hdrop, hrest]
  exact lt_succ_of_le (dropWhile_suffix _).length_le

theorem left_advance_le (p : Parser) : p.advance.left ≤ p.left := by
  grind [advance, left]

theorem left_advance_lt (hrest : p.rest = c :: rest) : p.advance.left < p.left := by
  simp [advance, left, hrest]

theorem left_endAssignment_le (p : Parser) : p.endAssignment.left ≤ p.left := by
  have hcomment : ∀ q : Parser, (if q.rest.head? = some '#'.toUInt8 then
      q.skipToEOL else q).left ≤ q.left := by
    grind [left_skipToEOL_le]
  have hnewline : ∀ q : Parser, (if q.rest.head?.any isNewline then
      q.advance else q).left ≤ q.left := by
    grind [left_advance_le]
  exact (hnewline _).trans ((hcomment _).trans (left_skipInline_le p))

theorem left_skipBlanksAndNewlines_le (p : Parser) : p.skipBlanksAndNewlines.left ≤ p.left := by
  have hloop : ∀ (rest : Bytes) (line : ℕ),
      (skipBlanksAndNewlinesLoop line rest).left ≤ rest.length := by
    intro rest
    induction rest with
    | nil =>
      intro line
      exact le_refl 0
    | cons c rest ih =>
      intro line
      simp only [skipBlanksAndNewlinesLoop]
      split
      · exact (ih _).trans (le_succ _)
      · exact le_refl _
  exact hloop p.rest p.line

theorem left_expect (h : p.expect c = some p') : p'.left < p.left := by
  grind [expect, left]

theorem left_separator (h : p.skipInline.expect c = some p') : p'.skipInline.left < p.left := by
  calc
    p'.skipInline.left ≤ p'.left := p'.left_skipInline_le
    _ < p.skipInline.left := left_expect h
    _ ≤ p.left := p.left_skipInline_le

theorem keyLoop_length {line : ℕ} {key' rest' : Bytes}
    (h : keyLoop line key rest = .ok (key', rest')) :
    key'.length + rest'.length = key.length + rest.length := by
  induction rest generalizing key with
  | nil =>
    obtain ⟨rfl, rfl⟩ := Prod.mk.inj (Except.ok.inj h)
    rfl
  | cons => grind [keyLoop]

theorem left_key (h : p.key = .ok (key, p')) : p'.left < p.left := by
  unfold Parser.key at h
  split at h
  · cases h
  next rest hloop =>
    split at h
    · cases h
    next hkey =>
      obtain ⟨rfl, rfl⟩ := Prod.mk.inj (Except.ok.inj h)
      have hlen := keyLoop_length hloop
      have hpos := length_pos_iff.mpr hkey
      rw [length_nil, zero_add] at hlen
      change rest.length < p.rest.length
      omega

theorem left_bareObjectKey (h : p.bareObjectKey = .ok (key, p')) : p'.left < p.left := by
  unfold bareObjectKey at h
  dsimp only at h
  split at h
  · cases h
  next hkey =>
    obtain ⟨-, rfl⟩ := Prod.mk.inj (Except.ok.inj h)
    have hsplit := congrArg length (takeWhile_append_dropWhile
      (p := fun c => !(decide (c = ':'.toUInt8) || isBlank c)) (l := p.rest))
    have hpos := length_pos_iff.mpr hkey
    rw [length_append] at hsplit
    change (p.rest.dropWhile _).length < p.rest.length
    omega

theorem left_quotedLoop {delim : UInt8} {line : ℕ} {text s : Bytes}
    (h : quotedLoop env delim line text rest = .ok (s, p')) : p'.left < rest.length := by
  fun_induction quotedLoop env delim line text rest with
  | case1 => cases h
  | case2 line text rest =>
    obtain ⟨-, rfl⟩ := Prod.mk.inj (Except.ok.inj h)
    exact lt_succ_self _
  | case3 => cases h
  | case4 line text c hdelim d rest hslash ih => grind
  | case5 line text c rest hdelim hslash ih => exact (ih h).trans (lt_succ_self _)

theorem left_quoted (h : p.quoted env c = .ok (key, p')) : p'.left < p.left := by
  calc
    p'.left < p.rest.tail.length := left_quotedLoop h
    _ ≤ p.left := by simp [left]

theorem left_objectKey (h : p.objectKey env c = .ok (key, p')) : p'.left < p.left := by
  unfold objectKey at h
  split at h
  · exact left_quoted h
  · exact left_bareObjectKey h

theorem scalarLoop_length_le (inBrace : ℕ) (raw rest : Bytes) :
    (scalarLoop inBrace raw rest).2.length ≤ rest.length := by
  fun_induction scalarLoop inBrace raw rest with
  | case1 => exact le_refl 0
  | case2 => exact zero_le _
  | case3 inBrace raw c d rest _ ih =>
    simp only [length_cons]
    omega
  | case4 _ _ _ _ _ ih | case8 _ _ _ _ _ _ _ _ ih => exact ih.trans (le_succ _)
  | case5 | case6 | case7 => exact le_refl _

/-- The bytes at which an unquoted value ends. -/
def Stops (c : UInt8) : Prop :=
  isNewline c ∨ c = '#'.toUInt8 ∨ c = ','.toUInt8 ∨ c = ']'.toUInt8 ∨ c = '}'.toUInt8

theorem left_scalar_le (env : Env) (p : Parser) : (p.scalar env).2.left ≤ p.left :=
  scalarLoop_length_le 0 [] p.rest

theorem left_scalar_lt (env : Env) (hrest : p.rest = c :: rest) (hc : ¬Stops c) :
    (p.scalar env).2.left < p.left := by
  change (scalarLoop 0 [] p.rest).2.length < p.rest.length
  simp only [Stops, not_or] at hc
  obtain ⟨hnewline, hcomment, hcomma, hbracket, hbrace⟩ := hc
  rw [hrest, scalarLoop.eq_def]
  grind [scalarLoop_length_le]

theorem scalar_snd_of_stops (env : Env) (hrest : p.rest = c :: rest) (hc : Stops c) :
    (p.scalar env).2 = p := by
  have hloop : scalarLoop 0 [] p.rest = ([], p.rest) := by
    rw [hrest, scalarLoop.eq_def]
    dsimp only
    have hdollar : c ≠ '$'.toUInt8 := by
      rintro rfl
      revert hc
      unfold Stops
      decide
    grind [Stops]
  simp only [scalar, hloop]

theorem head_skipBlanksAndNewlines (h : p.skipBlanksAndNewlines.rest = c :: rest) :
    ¬(isBlank c ∨ isNewline c) := by
  have hloop : ∀ (input : Bytes) (line : ℕ),
      (skipBlanksAndNewlinesLoop line input).rest = c :: rest → ¬(isBlank c ∨ isNewline c) := by
    intro input
    induction input with
    | nil =>
      intro line h
      cases h
    | cons => grind [skipBlanksAndNewlinesLoop]
  exact hloop p.rest p.line h

/-- The next array element starts with a closing brace or a comment. -/
def Stray (p : Parser) : Prop :=
  p.skipBlanksAndNewlines.rest.head? = some '}'.toUInt8 ∨
    p.skipBlanksAndNewlines.rest.head? = some '#'.toUInt8

instance (p : Parser) : Decidable p.Stray := inferInstanceAs (Decidable (_ ∨ _))

theorem Stray.exists_byte (h : p.Stray) :
    ∃ c rest, p.skipBlanksAndNewlines.rest = c :: rest ∧ (c = '}'.toUInt8 ∨ c = '#'.toUInt8) := by
  rcases h with h | h
  · obtain ⟨rest, hrest⟩ := head?_eq_some_iff.mp h
    exact ⟨_, rest, hrest, .inl rfl⟩
  · obtain ⟨rest, hrest⟩ := head?_eq_some_iff.mp h
    exact ⟨_, rest, hrest, .inr rfl⟩

theorem Stray.skipInline (h : p.Stray) : p.skipBlanksAndNewlines.skipInline.Stray := by
  obtain ⟨c, rest, hrest, hc⟩ := h.exists_byte
  have hskip := head_skipBlanksAndNewlines hrest
  have hblank : ¬isBlank c := fun hblank => hskip (.inl hblank)
  have hinline : p.skipBlanksAndNewlines.skipInline.rest = c :: rest := by
    simp [Parser.skipInline, hrest, hblank]
  grind [skipBlanksAndNewlines, skipBlanksAndNewlinesLoop, Stray]

end Parser

namespace Head

def left : Head → ℕ
  | .document _ p => p.left
  | .object _ p => p.left
  | .array _ p => p.left

/-- An array loop before a stray closing brace or comment. -/
def Stray : Head → Prop
  | .array _ p => p.Stray
  | _ => False

end Head

/-- A turn from a position at distance `n` stays within that distance. -/
def TurnWithin (n : ℕ) : Turn Head (Reading Parser Value KsonError) → Prop
  | .next h => h.left ≤ n
  | .done (.ok (_, p)) => p.left ≤ n
  | .done (.error _) => True

/-- An iteration from distance `n` gets closer to the end, and starts to read a
value at a distance less than `m`. -/
def IterWithin (n m : ℕ) : Iter → Prop
  | .turn (.next h) => h.left < n
  | .turn (.done (.ok (_, p))) => p.left ≤ n
  | .turn (.done (.error _)) => True
  | .read p k => p.left < m ∧ ∀ v p', TurnWithin p'.left (k v p')

/-- A value that starts at distance `n` enters a loop closer to the end, or is
read at once and ends at most there. -/
def StartWithin (n : ℕ) : ValueStart Head Parser Value KsonError → Prop
  | .loop h => h.left < n
  | .result (.ok (_, p)) => p.left ≤ n
  | .result (.error _) => True

section Loops

variable {env : Env} (p : Parser)

theorem documentIter_within (out : Map) : IterWithin p.left p.left (documentIter env out p) := by
  have hskip := p.left_skipBlanks_le
  unfold documentIter
  dsimp only
  split
  · exact hskip
  next c rest hrest =>
    split
    next hc =>
      have hc' : c ≠ '\n'.toUInt8 := by
        rw [hc]
        decide
      exact (left_skipToEOL_lt hrest hc').trans_le hskip
    · split
      · exact (left_advance_lt hrest).trans_le hskip
      · split
        · trivial
        next q hkey =>
          split
          · trivial
          next q' hexpect =>
            constructor
            · calc
                q'.skipInline.left < q.left := left_separator hexpect
                _ ≤ p.skipBlanks.left := (left_key hkey).le
                _ ≤ p.left := hskip
            · intro v p'
              dsimp only
              split
              · trivial
              · exact p'.left_endAssignment_le

theorem objectIter_within (obj : Map) : IterWithin p.left p.left (objectIter env obj p) := by
  have hskip := p.left_skipBlanksAndNewlines_le
  unfold objectIter
  dsimp only
  split
  · trivial
  next rest hrest =>
    have hlt : rest.length < p.left := (length_lt_left hrest).trans_le hskip
    split
    · exact hlt.le
    · split
      · exact hlt
      · split
        · trivial
        next q hkey =>
          split
          · trivial
          next q' hexpect =>
            constructor
            · calc
                q'.skipInline.left < q.left := left_separator hexpect
                _ ≤ p.skipBlanksAndNewlines.left := (left_objectKey hkey).le
                _ ≤ p.left := hskip
            · intro v p'
              exact p'.left_skipInline_le

theorem arrayIter_within (arr : List Value) : IterWithin p.left (p.left + 1) (arrayIter arr p) := by
  have hskip := p.left_skipBlanksAndNewlines_le
  unfold arrayIter
  dsimp only
  split
  · trivial
  next rest hrest =>
    have hlt : rest.length < p.left := (length_lt_left hrest).trans_le hskip
    split
    · exact hlt.le
    · split
      · exact hlt
      · constructor
        · exact lt_succ_of_le hskip
        · intro v p'
          exact p'.left_skipInline_le

theorem arrayIter_read {arr : List Value} {q : Parser}
    {k : Value → Parser → Turn Head (Reading Parser Value KsonError)}
    (h : arrayIter arr p = .read q k) :
    q = p.skipBlanksAndNewlines ∧ ∃ c rest, q.rest = c :: rest ∧
      c ≠ ']'.toUInt8 ∧ c ≠ ','.toUInt8 := by
  grind [arrayIter]

end Loops

variable {env : Env} {p : Parser}

theorem value_within {start : ValueStart Head Parser Value KsonError}
    (hvalue : p.value env = start) : StartWithin p.left start := by
  subst hvalue
  unfold value
  split
  · exact le_refl _
  next c rest hrest =>
    have hlt : rest.length < p.left := length_lt_left hrest
    split
    · exact le_refl _
    · split
      · exact hlt
      · split
        · exact hlt
        · split
          · cases hquoted : p.quoted env c with
            | error => trivial
            | ok => exact (left_quoted hquoted).le
          · exact p.left_scalar_le env

theorem value_lt {p' : Parser} {v : Value} {c : UInt8} {rest : Bytes} (hrest : p.rest = c :: rest)
    (hc : ¬Stops c) (h : p.value env = .result (.ok (v, p'))) : p'.left < p.left := by
  have hnewline : c ≠ '\n'.toUInt8 := by
    rintro rfl
    exact hc (.inl (by decide))
  unfold value at h
  simp only [hrest, hnewline, if_false] at h
  split at h
  · cases h
  · split at h
    · cases h
    · split at h
      · cases hquoted : p.quoted env c with
        | error =>
          rw [hquoted] at h
          cases h
        | ok =>
          rw [hquoted] at h
          cases h
          exact left_quoted hquoted
      · cases h
        exact left_scalar_lt env hrest hc

theorem arrayIter_repeats (arr : List Value) (h : p.Stray) :
    ∃ q k r h', arrayIter arr p = .read q k ∧
      q.value env = .result r ∧ Descent.resume k r = .next h' ∧ h'.Stray := by
  obtain ⟨c, rest, hrest, hc⟩ := h.exists_byte
  have hstops : Stops c := by
    rcases hc with rfl | rfl
    · exact .inr (.inr (.inr (.inr rfl)))
    · exact .inr (.inl rfl)
  refine ⟨p.skipBlanksAndNewlines, fun val p => .next (.array (arr ++ [val]) p.skipInline),
    .ok (p.skipBlanksAndNewlines.scalar env),
    .array (arr ++ [(p.skipBlanksAndNewlines.scalar env).1])
      p.skipBlanksAndNewlines.skipInline, ?_, ?_, ?_, h.skipInline⟩
  · rw [arrayIter, hrest]
    rcases hc with rfl | rfl
    · rfl
    · rfl
  · rw [value, hrest]
    rcases hc with rfl | rfl
    · rfl
    · rfl
  grind [Descent.resume, scalar_snd_of_stops]

theorem IterWithin.mono {n m m' : ℕ} {i : Iter} (hm : m ≤ m') (h : IterWithin n m i) :
    IterWithin n m' i := by
  cases i with
  | read => exact ⟨h.1.trans_le hm, h.2⟩
  | turn t =>
    cases t with
    | next => exact h
    | done r =>
      cases r with
      | ok => exact h
      | error => trivial

theorem iter_within {h : Head} {i : Iter} (hiter : (reader env).iter h = i) :
    IterWithin h.left (h.left + 1) i := by
  subst hiter
  cases h with
  | document out p => exact (documentIter_within p out).mono (le_succ _)
  | object obj p => exact (objectIter_within p obj).mono (le_succ _)
  | array arr p => exact arrayIter_within p arr

theorem result_lt {h : Head} {p' : Parser} {v : Value}
    {k : Value → Parser → Turn Head (Reading Parser Value KsonError)} (hstray : ¬h.Stray)
    (hiter : (reader env).iter h = .read p k) (hvalue : p.value env = .result (.ok (v, p'))) :
    p'.left < h.left := by
  have hle : p'.left ≤ p.left := value_within hvalue
  cases h with
  | document out q =>
    have hread : IterWithin q.left q.left (documentIter env out q) := documentIter_within q out
    rw [show documentIter env out q = _ from hiter] at hread
    exact hle.trans_lt hread.1
  | object obj q =>
    have hread : IterWithin q.left q.left (objectIter env obj q) := objectIter_within q obj
    rw [show objectIter env obj q = _ from hiter] at hread
    exact hle.trans_lt hread.1
  | array arr q =>
    obtain ⟨rfl, c, rest, hrest, hbracket, hcomma⟩ := arrayIter_read q hiter
    have hskip := head_skipBlanksAndNewlines hrest
    have hc : ¬Stops c := by
      intro hstops
      apply hstray
      change q.Stray
      grind [Stray, Stops]
    exact (value_lt hrest hc hvalue).trans_le q.left_skipBlanksAndNewlines_le

/-- The iterations shrink the input, except from stray array elements, which repeat. -/
theorem measured (env : Env) : (reader env).Measured left Head.left Head.Stray where
  done_le hiter := iter_within hiter
  next_lt hiter := iter_within hiter
  read_le hiter := le_of_lt_succ (iter_within hiter).1
  resume_next_le {h h' p p' v k} hiter hk := by
    have hturn := (iter_within hiter).2 v p'
    rwa [hk] at hturn
  resume_done_le {h p p' p'' v v' k} hiter hk := by
    have hturn := (iter_within hiter).2 v p'
    rwa [hk] at hturn
  enter_lt henter := value_within henter
  result_le henter := value_within henter
  result_lt hstray hiter henter := result_lt hstray hiter henter
  repeats {h} hstray := by
    cases h with
    | array arr => exact arrayIter_repeats arr hstray
    | document | object => cases hstray

/-- Parsing returns if and only if the parser comes to no array element that starts
with a closing brace or a comment. -/
theorem parse_returns_iff (env : Env) (src : Bytes) :
    ((∃ fuel r, parse env fuel src = some r) ↔ ∀ h, (reader env).Reaches (start src) h → ¬h.Stray) ∧
    ∀ h h' : Head, ¬h.Stray → (reader env).Next h h' → h'.left < h.left := by
  constructor
  · rw [← (measured env).returns_iff]
    constructor
    · rintro ⟨fuel, r, hparse⟩
      obtain ⟨r', hrun, -⟩ := Option.map_eq_some_iff.mp hparse
      exact ⟨fuel, r', hrun⟩
    · rintro ⟨fuel, r, hrun⟩
      exact ⟨fuel, _, Option.map_eq_some_iff.mpr ⟨r, hrun, rfl⟩⟩
  · intro h h' hstray hnext
    exact (measured env).size_lt_of_next hstray hnext

def emptyEnv : Env := ⟨fun _ => [], id, fun _ => none⟩

example : (parse emptyEnv 5 (ascii "a.b = [1, x]\n")).isSome := by
  decide +kernel

/-- `a=[}` is never parsed: the array loop collects empty strings before the brace. -/
theorem parse_stray_brace : ¬∃ fuel r, parse emptyEnv fuel (ascii "a=[\x7d") = some r := by
  rintro ⟨fuel, r, hparse⟩
  have hreach : (reader emptyEnv).Reaches (start (ascii "a=[\x7d")) (.array [] ⟨ascii "\x7d", 1⟩) :=
    .enter ⟨⟨ascii "[\x7d", 1⟩, _, rfl, rfl⟩ (.refl _)
  have hstray : Head.Stray (.array [] ⟨ascii "\x7d", 1⟩) := by
    change Parser.Stray ⟨ascii "\x7d", 1⟩
    decide
  grind [parse, Descent.Measured.run_of_reaches, measured]

end Fluxor.Kson
