import Mathlib.Data.List.TakeWhile
import BitcoinPurity.UniValue.Read

/-!
# What is read

* `UniValue.read_wellFormed`: in a value that `read` returns, every object has as many values as
  keys and every number is the text of a number token.
* `UniValue.read_whitespace`: whitespace between tokens does not matter.
-/

namespace BitcoinPurity

open List Option

namespace UniValue

/-! ## Well-formed values -/

def isNumChar (ch : UInt8) : Bool :=
  jsonIsDigit ch || ch == 0x2e || ch == 0x65 || ch == 0x45 || ch == 0x2b || ch == 0x2d

def NumText (val : Bytes) : Prop :=
  ∃ first rest, val = first :: rest ∧ (first = 0x2d ∨ jsonIsDigit first) ∧
    ∀ ch ∈ rest, isNumChar ch

/-- Objects have as many values as keys, and numbers are number texts. -/
inductive WellFormed : UniValue → Prop
  | null : WellFormed .null
  | bool (b : Bool) : WellFormed (.bool b)
  | num {val : Bytes} (h : NumText val) : WellFormed (.num val)
  | str (val : Bytes) : WellFormed (.str val)
  | arr {values : List UniValue} (h : ∀ v ∈ values, WellFormed v) : WellFormed (.arr values)
  | obj {keys : List Bytes} {values : List UniValue} (hlen : keys.length = values.length)
      (h : ∀ v ∈ values, WellFormed v) : WellFormed (.obj keys values)

/-! ## Numbers -/

variable {ch first : UInt8} {raw p : Bytes}

theorem isNumChar_of_digit (h : jsonIsDigit ch) : isNumChar ch := by
  simp [isNumChar, h]

/-- The next character decides where a number ends: it is the same, or a space. -/
def SameStop (rest q : Bytes) : Prop :=
  q.head? = rest.head? ∨ ∃ c ∈ q.head?, jsonIsSpace c

variable {c : UInt8} {q rest raw val ws : Bytes} {tok lastTok : JToken} {e : Expect}
  {stack : List Frame} {toks : List JToken} {v : UniValue}

theorem not_digit_of_space (h : jsonIsSpace c) : jsonIsDigit c = false := by
  simp only [jsonIsSpace, Bool.or_eq_true, beq_iff_eq] at h
  rcases h with ((rfl | rfl) | rfl) | rfl <;> decide

theorem digits_append {d : Bytes} (hd : ∀ c ∈ d, jsonIsDigit c)
    (hq : ∀ c ∈ q.head?, jsonIsDigit c = false) :
    (d ++ q).takeWhile jsonIsDigit = d ∧ (d ++ q).dropWhile jsonIsDigit = q := by
  have hstop : q.takeWhile jsonIsDigit = [] ∧ q.dropWhile jsonIsDigit = q := by
    cases q with
    | nil => simp
    | cons c q =>
      have := hq c rfl
      simp [this]
  rw [takeWhile_append_of_pos hd, dropWhile_append_of_pos hd, hstop.1, hstop.2]
  simp

theorem head_dropWhile_digit (raw : Bytes) :
    ∀ c ∈ (raw.dropWhile jsonIsDigit).head?, jsonIsDigit c = false := by
  intro c hc
  have := head?_dropWhile_not jsonIsDigit raw
  rw [mem_def.1 hc] at this
  simpa using this

theorem mem_takeWhile_digit : ∀ c ∈ raw.takeWhile jsonIsDigit, jsonIsDigit c :=
  fun _ hc => mem_takeWhile_imp hc

theorem SameStop.head {P : UInt8 → Prop} (h : SameStop rest q) (hrest : ∀ c ∈ rest.head?, P c)
    (hspace : ∀ c, jsonIsSpace c → P c) : ∀ c ∈ q.head?, P c := by
  intro c hc
  rcases h with h | ⟨c', hc', hc''⟩
  · exact hrest c (h ▸ hc)
  · rw [mem_unique hc hc']
    exact hspace c' hc''

/-- The digits at the head are taken again. -/
theorem SameStop.digits (h : SameStop (raw.dropWhile jsonIsDigit) q) :
    (raw.takeWhile jsonIsDigit ++ q).takeWhile jsonIsDigit = raw.takeWhile jsonIsDigit ∧
      (raw.takeWhile jsonIsDigit ++ q).dropWhile jsonIsDigit = q :=
  digits_append mem_takeWhile_digit (h.head (head_dropWhile_digit raw) fun _ => not_digit_of_space)

theorem scanExp_of_head (h : ∀ c ∈ q.head?, c ≠ 0x65 ∧ c ≠ 0x45) : scanExp q = some ([], q) := by
  cases q with
  | nil => rfl
  | cons c q =>
    have := h c rfl
    simp [scanExp, this.1, this.2]

theorem scanFrac_of_head (h : ∀ c ∈ q.head?, c ≠ 0x2e) : scanFrac q = some ([], q) := by
  cases q with
  | nil => rfl
  | cons c q =>
    have := h c rfl
    unfold scanFrac
    grind

theorem scanSign_spec (raw : Bytes) :
    raw = (scanSign raw).1 ++ (scanSign raw).2 ∧ (∀ c ∈ (scanSign raw).1, isNumChar c) ∧
      ∀ d q, jsonIsDigit d →
        scanSign ((scanSign raw).1 ++ d :: q) = ((scanSign raw).1, d :: q) := by
  have hdigit : ∀ d q, jsonIsDigit d → scanSign (d :: q) = ([], d :: q) := by
    intro d q hd
    have hne : ¬ (d = 0x2d ∨ d = 0x2b) := by
      rintro (rfl | rfl) <;> exact absurd hd (by decide)
    simp [scanSign, if_neg hne]
  cases raw with
  | nil => exact ⟨rfl, by simp [scanSign], fun d q hd => hdigit d q hd⟩
  | cons s raw =>
    by_cases hs : s = 0x2d ∨ s = 0x2b
    · simp only [scanSign, if_pos hs, cons_append, nil_append, mem_singleton]
      refine ⟨trivial, ?_, fun d q _ => trivial⟩
      rintro c rfl
      rcases hs with rfl | rfl <;> decide
    · simp only [scanSign, if_neg hs]
      exact ⟨rfl, by simp, fun d q hd => hdigit d q hd⟩

theorem scanExp_stable {e : Bytes} (h : scanExp raw = some (e, rest)) :
    raw = e ++ rest ∧ (∀ c ∈ e, isNumChar c) ∧ (∀ c ∈ e.head?, jsonIsDigit c = false) ∧
      ∀ q, SameStop rest q → scanExp (e ++ q) = some (e, q) := by
  -- without an exponent the head decides
  have hnone : ∀ q, SameStop raw q → (∀ c ∈ raw.head?, c ≠ 0x65 ∧ c ≠ 0x45) →
      scanExp q = some ([], q) := by
    refine fun q hq hraw => scanExp_of_head (hq.head hraw fun c hc => ?_)
    constructor <;> rintro rfl <;> exact absurd hc (by decide)
  cases raw with
  | nil =>
    obtain ⟨rfl, rfl⟩ := h
    exact ⟨rfl, by simp, by simp, fun q hq => hnone q hq (by simp)⟩
  | cons ch raw =>
    by_cases hch : ch = 0x65 ∨ ch = 0x45
    · simp only [scanExp, if_pos hch] at h
      obtain ⟨hsplit, hsign, hagain⟩ := scanSign_spec raw
      split at h
      · cases h
      next hempty =>
      obtain ⟨rfl, rfl⟩ := h
      have hraw : raw = (scanSign raw).1 ++ ((scanSign raw).2.takeWhile jsonIsDigit ++
          (scanSign raw).2.dropWhile jsonIsDigit) := by
        rw [takeWhile_append_dropWhile]
        exact hsplit
      refine ⟨?_, ?_, ?_, ?_⟩
      · rw [cons_append, cons_append, append_assoc, ← hraw]
      · intro c hc
        simp only [cons_append, mem_cons, mem_append] at hc
        rcases hc with rfl | hc | hc
        · rcases hch with rfl | rfl <;> decide
        · exact hsign c hc
        · exact isNumChar_of_digit (mem_takeWhile_digit c hc)
      · intro c hc
        simp only [cons_append, head?_cons, mem_some_iff] at hc
        subst hc
        rcases hch with rfl | rfl <;> decide
      · intro q hq
        obtain ⟨htake, hdrop⟩ := hq.digits
        rw [List.isEmpty_iff] at hempty
        obtain ⟨d, ds, hds⟩ := List.exists_cons_of_ne_nil hempty
        have hd : jsonIsDigit d := mem_takeWhile_digit d (hds ▸ mem_cons_self)
        have hsign' : scanSign ((scanSign raw).1 ++ ((scanSign raw).2.takeWhile jsonIsDigit ++ q)) =
            ((scanSign raw).1, (scanSign raw).2.takeWhile jsonIsDigit ++ q) := by
          rw [hds]
          exact hagain d (ds ++ q) hd
        simp only [List.cons_append, List.append_assoc, scanExp, if_pos hch, hsign', htake, hdrop]
        rw [if_neg (by rw [List.isEmpty_iff]; exact hempty)]
    · simp only [scanExp, if_neg hch] at h
      grind

theorem scanFrac_stable {f : Bytes} (h : scanFrac raw = some (f, rest)) :
    raw = f ++ rest ∧ (∀ c ∈ f, isNumChar c) ∧ (∀ c ∈ f.head?, jsonIsDigit c = false) ∧
      ∀ q, SameStop rest q → scanFrac (f ++ q) = some (f, q) := by
  by_cases hdot : ∃ raw', raw = 0x2e :: raw'
  · obtain ⟨raw, rfl⟩ := hdot
    simp only [scanFrac] at h
    split at h
    · cases h
    next hempty =>
    obtain ⟨rfl, rfl⟩ := h
    refine ⟨?_, ?_, ?_, ?_⟩
    · rw [cons_append, takeWhile_append_dropWhile]
    · intro c hc
      rcases mem_cons.1 hc with rfl | hc
      · decide
      · exact isNumChar_of_digit (mem_takeWhile_digit c hc)
    · intro c hc
      cases hc
      decide
    · intro q hq
      obtain ⟨htake, hdrop⟩ := hq.digits
      simp only [cons_append, scanFrac, htake, hdrop]
      rw [if_neg hempty]
  · have hraw : ∀ c ∈ raw.head?, c ≠ 0x2e := by
      rintro c hc rfl
      cases raw with
      | nil => cases hc
      | cons c raw =>
        cases hc
        exact hdot ⟨raw, rfl⟩
    rw [scanFrac_of_head hraw, some.injEq] at h
    obtain ⟨rfl, rfl⟩ := h
    refine ⟨rfl, by simp, by simp, fun q hq => scanFrac_of_head (hq.head hraw ?_)⟩
    rintro c hc rfl
    exact absurd hc (by decide)

/-- A leading zero before another digit, by the digits that follow the first character. -/
def leadingZero (first : UInt8) (digits : Bytes) : Prop :=
  if jsonIsDigit first then first = 0x30 ∧ digits ≠ []
  else digits.head? = some 0x30 ∧ digits.tail ≠ []

theorem head_any_digit (raw : Bytes) :
    raw.head?.any jsonIsDigit = !(raw.takeWhile jsonIsDigit).isEmpty := by
  cases raw with
  | nil => rfl
  | cons c raw => cases hc : jsonIsDigit c <;> simp [hc]

theorem scanNumber_eq_some : scanNumber first raw = some (val, rest) ↔
      ¬ leadingZero first (raw.takeWhile jsonIsDigit) ∧
      ¬ (first = 0x2d ∧ raw ≠ [] ∧ raw.takeWhile jsonIsDigit = []) ∧
      ∃ f r e, scanFrac (raw.dropWhile jsonIsDigit) = some (f, r) ∧ scanExp r = some (e, rest) ∧
        val = first :: (raw.takeWhile jsonIsDigit ++ f ++ e) := by
  have hzero : ((if jsonIsDigit first then first :: raw else raw).head? = some 0x30 ∧
      (if jsonIsDigit first then first :: raw else raw).tail.head?.any jsonIsDigit) ↔
      leadingZero first (raw.takeWhile jsonIsDigit) := by
    unfold leadingZero
    split
    · rw [tail_cons, head_any_digit, head?_cons, some.injEq, Bool.not_eq_true',
        isEmpty_eq_false_iff]
    · cases raw with
      | nil => simp
      | cons c raw =>
        rw [head_any_digit]
        cases hc : jsonIsDigit c with
        | true => simp [hc]
        | false =>
          have hne : c ≠ 0x30 := by
            rintro rfl
            exact absurd hc (by decide)
          simp [hc, hne]
  have hdash : (first = 0x2d ∧ raw ≠ [] ∧ (!raw.head?.any jsonIsDigit)) ↔
      (first = 0x2d ∧ raw ≠ [] ∧ raw.takeWhile jsonIsDigit = []) := by
    rw [head_any_digit, Bool.not_not, List.isEmpty_iff]
  unfold scanNumber
  by_cases h1 : leadingZero first (raw.takeWhile jsonIsDigit)
  · grind
  rw [if_neg (mt hzero.1 h1)]
  by_cases h2 : first = 0x2d ∧ raw ≠ [] ∧ raw.takeWhile jsonIsDigit = []
  · grind
  rw [if_neg (mt hdash.1 h2)]
  simp only [Option.pure_def, bind_eq_bind, bind_eq_some_iff, some.injEq, Prod.mk.injEq,
    Prod.exists]
  grind

/-- **Numbers**: a number token is its own text, and it is taken again before another rest.  A
minus sign alone is a number at the end of the text only. -/
theorem scanNumber_stable (h : scanNumber first raw = some (val, rest)) :
    ∃ lex, raw = lex ++ rest ∧ val = first :: lex ∧ (∀ c ∈ lex, isNumChar c) ∧
      ∀ q, SameStop rest q → (first = 0x2d → raw ≠ []) →
        scanNumber first (lex ++ q) = some (val, q) := by
  obtain ⟨h1, h2, f, r, e, hf, he, hval⟩ := scanNumber_eq_some.1 h
  obtain ⟨hfsplit, hfnum, hfhead, hfagain⟩ := scanFrac_stable hf
  obtain ⟨hesplit, henum, hehead, heagain⟩ := scanExp_stable he
  refine ⟨raw.takeWhile jsonIsDigit ++ f ++ e, ?_, hval, ?_, ?_⟩
  · rw [append_assoc, append_assoc, ← hesplit, ← hfsplit, takeWhile_append_dropWhile]
  · intro c hc
    simp only [mem_append] at hc
    rcases hc with (hc | hc) | hc
    · exact isNumChar_of_digit (mem_takeWhile_digit c hc)
    · exact hfnum c hc
    · exact henum c hc
  · intro q hq hdash
    have hstop : ∀ c ∈ (f ++ (e ++ q)).head?, jsonIsDigit c = false := by
      intro c hc
      cases f with
      | cons x f => exact hfhead c hc
      | nil =>
        cases e with
        | cons x e => exact hehead c hc
        | nil =>
          -- neither fraction nor exponent: the rest is where the digits stop
          have hrest : rest = raw.dropWhile jsonIsDigit := by
            rw [hfsplit, hesplit]
            rfl
          exact hq.head (hrest ▸ head_dropWhile_digit raw) (fun _ => not_digit_of_space) c hc
    obtain ⟨htake, hdrop⟩ := digits_append (@mem_takeWhile_digit raw) hstop
    have hsame : SameStop r (e ++ q) := by
      rw [hesplit]
      cases e with
      | cons x e => exact .inl rfl
      | nil => exact hq
    rw [append_assoc, append_assoc, scanNumber_eq_some, htake, hdrop]
    refine ⟨h1, fun hc => h2 ⟨hc.1, hdash hc.1, hc.2.2⟩, f, e ++ q, e, hfagain _ hsame,
      heagain q hq, hval⟩

/-! ## Strings and tokens -/

/-- **Strings**: the scan does not look behind the closing quote. -/
theorem scanString_stable {w w' : StringFilter} (h : scanString raw w = some (w', rest)) :
    ∃ lex, raw = lex ++ rest ∧ ∀ q, scanString (lex ++ q) w = some (w', q) := by
  fun_induction scanString raw w with
  | case1 w => cases h
  | case2 ch raw w hlow => cases h
  | case3 w hlow => cases h
  | case4 w esc raw c hesc hlow ih =>
    obtain ⟨lex, hraw, hagain⟩ := ih h
    refine ⟨0x5c :: esc :: lex, by rw [hraw]; rfl, fun q => ?_⟩
    rw [cons_append, cons_append, scanString.eq_def]
    simp only [if_true, hesc]
    exact hagain q
  | case5 w d1 d2 d3 d4 next raw cp hcp hlow hesc ih =>
    obtain ⟨lex, hraw, hagain⟩ := ih h
    cases lex with
    | nil =>
      have := hagain []
      simp [scanString] at this
    | cons x lex =>
      refine ⟨0x5c :: 0x75 :: d1 :: d2 :: d3 :: d4 :: x :: lex, by rw [hraw]; rfl, fun q => ?_⟩
      have := hagain q
      simp only [cons_append]
      rw [scanString.eq_def]
      simp only [hesc, hcp]
      exact this
  | case6 => cases h
  | case7 => cases h
  | case8 => cases h
  | case9 ch raw w =>
    cases h
    exact ⟨[0x22], rfl, fun q => by rw [scanString.eq_def]; rfl⟩
  | case10 ch raw w hlow hesc hquote ih =>
    obtain ⟨lex, hraw, hagain⟩ := ih h
    refine ⟨ch :: lex, by rw [hraw]; rfl, fun q => ?_⟩
    rw [cons_append, scanString.eq_def]
    grind

/-- The tokens before the end of the text. -/
def JToken.Proper (tok : JToken) : Prop := tok ≠ .none ∧ tok ≠ .err

theorem punctuation_proper (h : punctuation ch = some tok) : ∀ val, tok ≠ .number val := by
  unfold punctuation at h
  split_ifs at h <;> cases h <;> simp

theorem keyword_stable (h : keyword raw = (tok, rest)) (htok : tok.Proper) :
    (∀ val, tok ≠ .number val) ∧ ∃ lex, raw = lex ++ rest ∧ ∀ q, keyword (lex ++ q) = (tok, q) := by
  unfold keyword at h
  split_ifs at h with h1 h2 h3
  · cases h
    exact ⟨by simp, raw.take 4, (take_append_drop 4 raw).symm, fun q => by rw [h1]; rfl⟩
  · cases h
    exact ⟨by simp, raw.take 4, (take_append_drop 4 raw).symm, fun q => by rw [h2]; rfl⟩
  · cases h
    exact ⟨by simp, raw.take 5, (take_append_drop 5 raw).symm, fun q => by rw [h3]; rfl⟩
  · cases h
    exact absurd rfl htok.2

theorem getToken_space (hc : jsonIsSpace ch) : (getToken (ch :: raw)).1 = .err := by
  simp only [jsonIsSpace, Bool.or_eq_true, beq_iff_eq] at hc
  rcases hc with ((rfl | rfl) | rfl) | rfl <;> rfl

/-- **Tokens**: a token takes some text and only looks at the next character behind it. -/
theorem getToken_stable (h : getToken raw = (tok, rest)) (htok : tok.Proper) :
    (∀ val, tok = .number val → NumText val ∧ raw = val ++ rest) ∧
    ∃ ch lex, raw = ch :: lex ++ rest ∧ jsonIsSpace ch = false ∧ ∀ q, SameStop rest q →
      (tok = .number [0x2d] → rest ≠ []) → getToken (ch :: lex ++ q) = (tok, q) := by
  cases raw with
  | nil =>
    cases h
    exact absurd rfl htok.1
  | cons ch raw =>
    have hspace : jsonIsSpace ch = false :=
      Bool.eq_false_iff.2 fun hc => htok.2 ((congrArg Prod.fst h).symm.trans (getToken_space hc))
    simp only [getToken] at h
    split at h
    · next tok' hp =>
      cases h
      exact ⟨fun val hval => absurd hval (punctuation_proper hp val), ch, [], rfl, hspace,
        fun q _ _ => by simp [getToken, hp]⟩
    next hp =>
    split_ifs at h with hkey hdigit hquote
    · obtain ⟨hnum, lex, hraw, hagain⟩ := keyword_stable h htok
      refine ⟨fun val hval => absurd hval (hnum val), ?_⟩
      cases lex with
      | nil =>
        have hnil : keyword [] = (tok, []) := hagain []
        cases hnil
        exact absurd rfl htok.2
      | cons c lex =>
        obtain ⟨rfl, rfl⟩ := hraw
        refine ⟨ch, lex, rfl, hspace, fun q _ _ => ?_⟩
        rw [cons_append]
        simp only [getToken, hp, if_pos hkey]
        exact hagain q
    · split at h
      · next val rest' hscan =>
        cases h
        obtain ⟨lex, hraw, hval, hchars, hagain⟩ := scanNumber_stable hscan
        refine ⟨?_, ch, lex, by rw [hraw]; rfl, hspace, fun q hq hdash => ?_⟩
        · rintro _ ⟨⟩
          exact ⟨⟨ch, lex, hval, hdigit, hchars⟩, by rw [hval, hraw]; rfl⟩
        · have hne : ch = 0x2d → raw ≠ [] := by
            rintro rfl rfl
            obtain ⟨rfl, rfl⟩ := append_eq_nil_iff.1 hraw.symm
            exact hdash (by rw [hval]) rfl
          simp [getToken, hp, if_neg hkey, if_pos hdigit, hagain q hq hne]
      · cases h
        exact absurd rfl htok.2
    · split at h
      · next w rest' hscan =>
        split_ifs at h with hw
        · cases h
          obtain ⟨lex, hraw, hagain⟩ := scanString_stable hscan
          refine ⟨by simp, ch, lex, by rw [hraw]; rfl, hspace, fun q _ _ => ?_⟩
          simp [getToken, hp, if_neg hkey, if_neg hdigit, if_pos hquote, hagain q, if_pos hw]
        · cases h
          exact absurd rfl htok.2
      · cases h
        exact absurd rfl htok.2
    · cases h
      exact absurd rfl htok.2

/-! ## The tokens of a text -/

theorem getJsonToken_length (h : getJsonToken raw = (tok, rest)) (htok : tok.Proper) :
    rest.length < raw.length := by
  obtain ⟨-, ch, lex, hraw, -⟩ := getToken_stable h htok
  have hle := length_dropWhile_le jsonIsSpace raw
  rw [hraw, length_append, length_cons] at hle
  omega

theorem tokensLoop_succ (fuel : Nat) (h : getJsonToken raw = (tok, rest)) (htok : tok.Proper) :
    tokensLoop (fuel + 1) raw = tok :: tokensLoop fuel rest := by
  rw [tokensLoop, h]
  exact if_neg fun hc => hc.elim htok.1 htok.2

theorem tokensLoop_end (fuel : Nat) (h : getJsonToken raw = (tok, rest)) (htok : ¬ tok.Proper) :
    tokensLoop (fuel + 1) raw = [tok] := by
  rw [tokensLoop, h]
  refine if_pos ?_
  by_contra hc
  push Not at hc
  exact htok hc

theorem tokensLoop_fuel {fuel fuel' : Nat} (h : raw.length < fuel) (h' : raw.length < fuel') :
    tokensLoop fuel raw = tokensLoop fuel' raw := by
  induction fuel generalizing fuel' raw with
  | zero => omega
  | succ fuel ih =>
    cases fuel' with
    | zero => omega
    | succ fuel' =>
      rcases hget : getJsonToken raw with ⟨tok, rest⟩
      by_cases htok : tok.Proper
      · have hlen := getJsonToken_length hget htok
        rw [tokensLoop_succ fuel hget htok, tokensLoop_succ fuel' hget htok]
        exact congrArg (cons tok) (ih (by omega) (by omega))
      · rw [tokensLoop_end fuel hget htok, tokensLoop_end fuel' hget htok]

theorem tokens_cons (h : getJsonToken raw = (tok, rest)) (htok : tok.Proper) :
    tokens raw = tok :: tokens rest := by
  have hlen := getJsonToken_length h htok
  unfold tokens
  rw [tokensLoop_succ _ h htok, tokensLoop_fuel hlen (Nat.lt_succ_self _)]

theorem tokens_end {rest : Bytes} {tok : JToken} (h : getJsonToken raw = (tok, rest))
    (htok : ¬ tok.Proper) : tokens raw = [tok] :=
  tokensLoop_end _ h htok

theorem tokens_space (hc : jsonIsSpace c) : tokens (c :: raw) = tokens raw := by
  have hsame : getJsonToken (c :: raw) = getJsonToken raw := by
    unfold getJsonToken
    rw [dropWhile_cons_of_pos hc]
  rcases hget : getJsonToken raw with ⟨tok, rest⟩
  rw [hget] at hsame
  by_cases htok : tok.Proper
  · rw [tokens_cons hget htok, tokens_cons hsame htok]
  · rw [tokens_end hget htok, tokens_end hsame htok]

theorem tokens_spaces (hws : ∀ c ∈ ws, jsonIsSpace c) : tokens (ws ++ raw) = tokens raw := by
  induction ws with
  | nil => rfl
  | cons c ws ih =>
    rw [cons_append, tokens_space (hws c mem_cons_self)]
    exact ih fun c hc => hws c (mem_cons_of_mem _ hc)

theorem numText_of_mem_tokens (h : .number val ∈ tokens raw) : NumText val := by
  induction hn : raw.length using Nat.strongRecOn generalizing raw with
  | _ n ih =>
    rcases hget : getJsonToken raw with ⟨tok, rest⟩
    by_cases htok : tok.Proper
    · rw [tokens_cons hget htok, mem_cons] at h
      rcases h with h | h
      · exact ((getToken_stable hget htok).1 val h.symm).1
      · exact ih _ (hn ▸ getJsonToken_length hget htok) h rfl
    · rw [tokens_end hget htok, mem_singleton] at h
      rw [← h] at htok
      exact absurd ⟨by simp, by simp⟩ htok

/-! ## Whitespace -/

/-- The position between `p` and `q` lies between two tokens of the text `p ++ q`, or at its ends:
it is reached by skipping whitespace and taking whole tokens. -/
inductive Boundary : Bytes → Bytes → Prop
  | start (q : Bytes) : Boundary [] q
  | space {c : UInt8} {p q : Bytes} (hc : jsonIsSpace c) (h : Boundary p q) :
      Boundary (c :: p) q
  | token {lex p q : Bytes} {tok : JToken} (ht : getToken (lex ++ (p ++ q)) = (tok, p ++ q))
      (htok : tok.Proper) (h : Boundary p q) : Boundary (lex ++ p) q

theorem tokens_dash (hc : jsonIsSpace c) : tokens (0x2d :: c :: raw) = [.err] := by
  have hscan : scanNumber 0x2d (c :: raw) = none := by
    cases hs : scanNumber 0x2d (c :: raw) with
    | none => rfl
    | some r =>
      have hdash := (scanNumber_eq_some.1 hs).2.1
      refine absurd ⟨rfl, by simp, ?_⟩ hdash
      rw [takeWhile_cons_of_neg (by simp [not_digit_of_space hc])]
  refine @tokens_end _ (0x2d :: c :: raw) .err ?_ fun h => h.2 rfl
  show getToken (0x2d :: c :: raw) = _
  unfold getToken
  simp only [hscan]
  rfl

/-- **Whitespace between tokens** leaves the tokens as they are.  The exception is a minus sign at
the end of the text. -/
theorem tokens_whitespace (h : Boundary p q) (hws : ∀ c ∈ ws, jsonIsSpace c) :
    tokens (p ++ (ws ++ q)) = tokens (p ++ q) ∨
      ∃ toks, tokens (p ++ q) = toks ++ [.number [0x2d], .none] ∧
        tokens (p ++ (ws ++ q)) = toks ++ [.err] := by
  induction h with
  | start q => exact .inl (tokens_spaces hws)
  | space hc _ ih =>
    rw [cons_append, cons_append, tokens_space hc, tokens_space hc]
    exact ih
  | @token lex p q tok ht htok _ ih =>
    obtain ⟨hnum, ch, lex', hsplit, hspace, hagain⟩ := getToken_stable ht htok
    obtain rfl : lex = ch :: lex' := append_cancel_right hsplit
    have hget : ∀ r, getJsonToken (ch :: lex' ++ r) = getToken (ch :: lex' ++ r) := by
      intro r
      unfold getJsonToken
      rw [cons_append, dropWhile_cons_of_neg (by simp [hspace])]
    have hfirst : tokens (ch :: lex' ++ p ++ q) = tok :: tokens (p ++ q) := by
      rw [append_assoc]
      exact tokens_cons ((hget _).trans ht) htok
    by_cases hdash : tok = .number [0x2d] → p ++ q ≠ []
    · have hstop : SameStop (p ++ q) (p ++ (ws ++ q)) := by
        cases p with
        | cons c p => exact .inl rfl
        | nil =>
          cases ws with
          | nil => exact .inl rfl
          | cons c ws => exact .inr ⟨c, rfl, hws c mem_cons_self⟩
      have hsecond : tokens (ch :: lex' ++ p ++ (ws ++ q)) = tok :: tokens (p ++ (ws ++ q)) := by
        rw [append_assoc]
        exact tokens_cons ((hget _).trans (hagain _ hstop hdash)) htok
      grind
    · push Not at hdash
      obtain ⟨rfl, hnil⟩ := hdash
      obtain ⟨rfl, rfl⟩ := append_eq_nil_iff.1 hnil
      -- the text ends in a minus sign
      have htext := (hnum _ rfl).2
      simp only [append_nil] at htext
      rw [htext]
      cases ws with
      | nil => exact .inl rfl
      | cons c ws => exact .inr ⟨[], rfl, tokens_dash (hws c mem_cons_self)⟩

theorem readLoop_cons {toks' : List JToken}
    (h : readLoop lastTok e stack (tok :: toks) = some (v, toks')) :
    readToken lastTok e stack tok = some (.inl v) ∧ toks' = toks ∨ ∃ e' stack',
      readToken lastTok e stack tok = some (.inr (e', stack')) ∧
        readLoop tok e' stack' toks = some (v, toks') := by
  rw [readLoop] at h
  grind

theorem readLoop_last_number
    (h : readLoop lastTok e stack (toks ++ [.number val, .none]) = some (v, [.none])) :
    v = .num val := by
  induction toks generalizing lastTok e stack with
  | nil =>
    obtain ⟨hr, -⟩ | ⟨e', stack', -, h⟩ := readLoop_cons h
    · simp only [readToken, bind_eq_bind, bind_eq_some_iff] at hr
      obtain ⟨e', -, hadd⟩ := hr
      cases stack with
      | nil =>
        cases hadd
        rfl
      | cons top stack => cases hadd
    · simp [readLoop, readToken] at h
  | cons tok toks ih =>
    obtain ⟨-, heq⟩ | ⟨e', stack', -, h⟩ := readLoop_cons h
    · simpa using congrArg length heq
    · exact ih h

theorem readLoop_last_err : readLoop lastTok e stack (toks ++ [.err]) ≠ some (v, [.none]) := by
  induction toks generalizing lastTok e stack with
  | nil => simp [readLoop, readToken]
  | cons tok toks ih =>
    intro h
    obtain ⟨-, heq⟩ | ⟨e', stack', -, h⟩ := readLoop_cons h
    · simpa using congrArg getLast? heq
    · exact ih h

theorem read_eq_some :
    read raw = some v ↔ readLoop .none {} [] (tokens raw) = some (v, [.none]) := by
  unfold read
  grind

/-- **Whitespace** between tokens does not matter, and where it does (behind a minus sign at the
end of the text) no container is read. -/
theorem read_whitespace (h : Boundary p q) (hws : ∀ c ∈ ws, jsonIsSpace c) :
    read (p ++ (ws ++ q)) = read (p ++ q) ∨
      (read (p ++ (ws ++ q)) = none ∧ ∀ v, read (p ++ q) = some v → v.isObject = false) := by
  rcases tokens_whitespace h hws with heq | ⟨toks, h1, h2⟩
  · refine .inl ?_
    unfold read
    rw [heq]
  refine .inr ⟨?_, fun v hv => ?_⟩
  · cases hr : read (p ++ (ws ++ q)) with
    | none => rfl
    | some v =>
      rw [read_eq_some, h2] at hr
      exact absurd hr readLoop_last_err
  · rw [read_eq_some, h1] at hv
    rw [readLoop_last_number hv]
    rfl

/-! ## What is read is well formed -/

/-- The container is complete up to the last comma. -/
def Frame.Balanced (f : Frame) : Prop := f.isObj → f.keys.length = f.values.length

/-- The last key has no value yet. -/
def Frame.Pending (f : Frame) : Prop := f.isObj → f.keys.length = f.values.length + 1

/-- The states that `expectMask` can be in. -/
inductive Phase : Expect → Frame → Prop
  | name {f : Frame} (hobj : f.isObj) (h : f.Balanced) : Phase { objName := true } f
  | colon {f : Frame} (hobj : f.isObj) (h : f.Pending) :
      Phase { colon := true, notValue := true } f
  | value {f : Frame} (hobj : f.isObj) (h : f.Pending) : Phase { value := true } f
  | element {f : Frame} (harr : f.isObj = false) : Phase { arrValue := true } f
  | separator {f : Frame} (h : f.Balanced) : Phase { notValue := true } f

/-- The stack of `read`: the containers below wait for the one above. -/
inductive Open : Expect → List Frame → Prop
  | start : Open {} []
  | frames {e : Expect} {top : Frame} {below : List Frame} (hphase : Phase e top)
      (hbelow : ∀ f ∈ below, f.Pending)
      (hvalues : ∀ f ∈ top :: below, ∀ v ∈ f.values, WellFormed v) : Open e (top :: below)

theorem Frame.close_wellFormed {f : Frame} (h : f.Balanced) (hv : ∀ v ∈ f.values, WellFormed v) :
    WellFormed f.close := by
  unfold Frame.close
  split
  · next hobj => exact .obj (h hobj) hv
  · exact .arr hv

/-- The result of one token: a value, or a stack. -/
def Outcome : UniValue ⊕ (Expect × List Frame) → Prop
  | .inl v => WellFormed v
  | .inr (e, stack) => Open e stack

section
variable {lastTok tok : JToken} {e : Expect} {stack below : List Frame} {top : Frame}
  {r : UniValue ⊕ (Expect × List Frame)} {v : UniValue}

theorem outcome_addValue (hv : WellFormed v) (hstack : ∀ f ∈ stack, f.Pending)
    (hvalues : ∀ f ∈ stack, ∀ v ∈ f.values, WellFormed v) : Outcome (addValue {} stack v) := by
  cases stack with
  | nil => exact hv
  | cons top below =>
    refine Open.frames (.separator ?_) (fun f hf => hstack f (mem_cons_of_mem _ hf)) ?_
    · intro hobj
      simpa using hstack top mem_cons_self hobj
    · grind

theorem outcome_open {isObj : Bool} (hphase : Phase e { isObj := isObj })
    (hstack : ∀ f ∈ stack, f.Pending) (hvalues : ∀ f ∈ stack, ∀ v ∈ f.values, WellFormed v) :
    Outcome (.inr (e, { isObj := isObj } :: stack)) := by
  refine Open.frames hphase hstack fun f hf w hw => ?_
  rcases mem_cons.1 hf with rfl | hf
  · cases hw
  · exact hvalues f hf w hw

theorem outcome_valueOpen (he : checkExpect e tok = some {}) (htok : isValueOpen tok)
    (hstack : ∀ f ∈ stack, f.Pending) (hvalues : ∀ f ∈ stack, ∀ v ∈ f.values, WellFormed v)
    (hnum : ∀ val, tok = .number val → NumText val)
    (hr : readToken lastTok e stack tok = some r) : Outcome r := by
  have hadd : ∀ v, WellFormed v → addValue {} stack v = r → Outcome r := by
    rintro v hv rfl
    exact outcome_addValue hv hstack hvalues
  simp only [readToken, he] at hr
  cases tok with
  | objOpen =>
    simp at hr
    rw [← hr.2]
    exact outcome_open (.name rfl fun _ => rfl) hstack hvalues
  | arrOpen =>
    simp at hr
    rw [← hr.2]
    exact outcome_open (.element rfl) hstack hvalues
  | kwNull => exact hadd _ .null (by simpa using hr)
  | kwTrue => exact hadd _ (.bool true) (by simpa using hr)
  | kwFalse => exact hadd _ (.bool false) (by simpa using hr)
  | number val => exact hadd _ (.num (hnum val rfl)) (by simpa using hr)
  | string val => exact hadd _ (.str val) (by simpa using hr)
  | _ => cases htok

theorem outcome_close (hbal : top.Balanced) (hbelow : ∀ f ∈ below, f.Pending)
    (hvalues : ∀ f ∈ top :: below, ∀ v ∈ f.values, WellFormed v)
    (hr : addValue {} below top.close = r) : Outcome r := by
  rw [← hr]
  exact outcome_addValue (Frame.close_wellFormed hbal (hvalues top mem_cons_self)) hbelow
    fun f hf => hvalues f (mem_cons_of_mem top hf)

/-- **One token** keeps the stack in order. -/
theorem readToken_open (h : Open e stack) (hr : readToken lastTok e stack tok = some r)
    (hnum : ∀ val, tok = .number val → NumText val) : Outcome r := by
  cases h with
  | start =>
    cases hopen : isValueOpen tok with
    | true =>
      refine outcome_valueOpen ?_ hopen (by simp) (by simp) hnum hr
      cases tok <;> first | rfl | cases hopen
    | false => cases tok <;> first | (cases hopen; done) | simp [readToken] at hr
  | @frames _ top below hphase hbelow hvalues =>
    cases hphase with
    | name hobj hbal =>
      cases tok with
      | objClose =>
        simp [readToken, checkExpect] at hr
        exact outcome_close hbal hbelow hvalues hr.2.2
      | string val =>
        simp [readToken, checkExpect] at hr
        rw [← hr]
        refine Open.frames (.colon hobj fun _ => ?_) hbelow ?_
        · simpa using hbal hobj
        · simpa using hvalues
      | _ => simp [readToken, checkExpect] at hr
    | colon hobj hpend =>
      cases tok with
      | colon =>
        simp [readToken, checkExpect, isValueOpen] at hr
        rw [← hr.2]
        exact Open.frames (.value hobj hpend) hbelow hvalues
      | _ => simp [readToken, checkExpect] at hr
    | value hobj hpend =>
      cases hopen : isValueOpen tok with
      | true =>
        refine outcome_valueOpen ?_ hopen ?_ hvalues hnum hr
        · cases tok <;> first | rfl | cases hopen
        · exact forall_mem_cons.2 ⟨hpend, hbelow⟩
      | false =>
        cases tok <;>
          first | (cases hopen; done) | simp [readToken, checkExpect, isValueOpen] at hr
    | element harr =>
      have hbal : top.Balanced := fun hobj => by rw [harr] at hobj; cases hobj
      have hpend : top.Pending := fun hobj => by rw [harr] at hobj; cases hobj
      cases hopen : isValueOpen tok with
      | true =>
        refine outcome_valueOpen ?_ hopen ?_ hvalues hnum hr
        · cases tok <;> first | rfl | cases hopen
        · exact forall_mem_cons.2 ⟨hpend, hbelow⟩
      | false =>
        cases tok with
        | arrClose =>
          simp [readToken, checkExpect] at hr
          exact outcome_close hbal hbelow hvalues hr.2.2
        | _ => first | (cases hopen; done) | simp [readToken, checkExpect, isValueOpen] at hr
    | separator hbal =>
      cases tok with
      | objClose =>
        simp [readToken, checkExpect, isValueOpen] at hr
        exact outcome_close hbal hbelow hvalues hr.2.2
      | arrClose =>
        simp [readToken, checkExpect, isValueOpen] at hr
        exact outcome_close hbal hbelow hvalues hr.2.2
      | comma =>
        cases hobj : top.isObj with
        | true =>
          simp [readToken, checkExpect, isValueOpen, hobj] at hr
          rw [← hr.2]
          exact Open.frames (.name hobj hbal) hbelow hvalues
        | false =>
          simp [readToken, checkExpect, isValueOpen, hobj] at hr
          rw [← hr.2]
          exact Open.frames (.element hobj) hbelow hvalues
      | _ => simp [readToken, checkExpect, isValueOpen] at hr

end

theorem readLoop_wellFormed {toks' : List JToken} (h : Open e stack)
    (hr : readLoop lastTok e stack toks = some (v, toks'))
    (hnum : ∀ val, .number val ∈ toks → NumText val) : WellFormed v := by
  induction toks generalizing lastTok e stack with
  | nil => cases hr
  | cons tok toks ih =>
    have hout {r} (hstep : readToken lastTok e stack tok = some r) : Outcome r :=
      readToken_open h hstep fun val hval => hnum val (by simp [hval])
    obtain ⟨hstep, -⟩ | ⟨e', stack', hstep, hr⟩ := readLoop_cons hr
    · exact hout hstep
    · exact ih (hout hstep) hr fun val hval => hnum val (mem_cons_of_mem tok hval)

/-- **Well-formed**: what `read` returns. -/
theorem read_wellFormed (h : read raw = some v) : WellFormed v :=
  readLoop_wellFormed .start (read_eq_some.1 h) fun _ => numText_of_mem_tokens

end UniValue

end BitcoinPurity
