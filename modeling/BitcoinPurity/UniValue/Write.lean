import BitcoinPurity.UniValue.Grammar

/-!
# The writer is injective

`UniValue.write_injective`: two well-formed values that are written as the same text are the same.
The text of a value tells where it ends: `write_ends` compares two texts that go on behind the
value.
-/

namespace BitcoinPurity

open List

namespace UniValue

/-! ## Strings -/

def escapeByte (ch : UInt8) : Bytes := (escapes ch).getD [ch]

theorem jsonEscape_cons (ch : UInt8) (s : Bytes) :
    jsonEscape (ch :: s) = escapeByte ch ++ jsonEscape s := rfl

def unescapeByte : Bytes → UInt8
  | [ch] => ch
  | [_, esc] => (unescape esc).getD 0
  | [_, _, d₁, d₂, d₃, d₄] => ((hatoui d₁ d₂ d₃ d₄).getD 0).toUInt8
  | _ => 0

theorem unescapeByte_escapeByte_all :
    ∀ n < 256, unescapeByte (escapeByte n.toUInt8) = n.toUInt8 := by
  decide +kernel

theorem unescapeByte_escapeByte (ch : UInt8) : unescapeByte (escapeByte ch) = ch := by
  have h := unescapeByte_escapeByte_all ch.toNat ch.toNat_lt
  rwa [show ch.toNat.toUInt8 = ch by simp] at h

/-- The length of an escape, by the character after the backslash. -/
def escapeLength (tail : Bytes) : Nat := if tail.head? = some 0x75 then 5 else 1

theorem escapeByte_shape_all : ∀ n < 256,
    (escapeByte n.toUInt8 = [n.toUInt8] ∧ n.toUInt8 ≠ 0x5c ∧ n.toUInt8 ≠ 0x22) ∨
      ((escapeByte n.toUInt8).head? = some 0x5c ∧
        (escapeByte n.toUInt8).tail.length = escapeLength (escapeByte n.toUInt8).tail) := by
  decide +kernel

theorem escapeByte_shape (ch : UInt8) : (escapeByte ch = [ch] ∧ ch ≠ 0x5c ∧ ch ≠ 0x22) ∨
      ∃ tail, escapeByte ch = 0x5c :: tail ∧ tail.length = escapeLength tail := by
  have h := escapeByte_shape_all ch.toNat ch.toNat_lt
  rw [show ch.toNat.toUInt8 = ch by simp] at h
  refine h.imp_right fun ⟨hhead, hlen⟩ => ⟨(escapeByte ch).tail, ?_, hlen⟩
  cases he : escapeByte ch with
  | nil =>
    simp [he] at hhead
  | cons x t => grind

theorem escapeByte_append_inj {c c' : UInt8} {x y : Bytes}
    (h : escapeByte c ++ x = escapeByte c' ++ y) : c = c' ∧ x = y := by
  have hsame : escapeByte c = escapeByte c' ∧ x = y := by
    rcases escapeByte_shape c with ⟨hc, hc1, -⟩ | ⟨t, hc, hlen⟩ <;>
      rcases escapeByte_shape c' with ⟨hc', hc1', -⟩ | ⟨t', hc', hlen'⟩ <;>
      rw [hc, hc'] at h ⊢
    · grind
    · grind
    · grind
    · simp only [cons_append, cons.injEq, true_and] at h
      have hne : t ≠ [] := by
        rintro rfl
        exact absurd hlen (by decide)
      have hne' : t' ≠ [] := by
        rintro rfl
        exact absurd hlen' (by decide)
      have hhead : t.head? = t'.head? := by
        obtain ⟨a, t, rfl⟩ := exists_cons_of_ne_nil hne
        obtain ⟨a', t', rfl⟩ := exists_cons_of_ne_nil hne'
        grind
      have hl : t.length = t'.length := by
        rw [hlen, hlen', escapeLength, escapeLength, hhead]
      obtain ⟨rfl, rfl⟩ := append_inj h hl
      exact ⟨rfl, rfl⟩
  refine ⟨?_, hsame.2⟩
  rw [← unescapeByte_escapeByte c, hsame.1, unescapeByte_escapeByte]

theorem escapeByte_head (c : UInt8) : ∃ x t, escapeByte c = x :: t ∧ x ≠ 0x22 := by
  rcases escapeByte_shape c with ⟨hc, -, hne⟩ | ⟨t, hc, -⟩
  · exact ⟨c, [], hc, hne⟩
  · exact ⟨0x5c, t, hc, by decide⟩

variable {r r' t : Bytes} {v : UniValue} {close : UInt8} {vs vs' : List UniValue}

theorem jsonEscape_append_inj {s s' : Bytes}
    (h : jsonEscape s ++ 0x22 :: r = jsonEscape s' ++ 0x22 :: r') : s = s' ∧ r = r' := by
  induction s generalizing s' with
  | nil =>
    cases s' with
    | nil =>
      simp only [jsonEscape, nil_append, cons.injEq, true_and] at h
      exact ⟨rfl, h⟩
    | cons c s' =>
      obtain ⟨x, t, hx, hne⟩ := escapeByte_head c
      rw [jsonEscape_cons, hx] at h
      simp only [jsonEscape, nil_append, cons_append, cons.injEq] at h
      exact absurd h.1.symm hne
  | cons c s ih =>
    cases s' with
    | nil =>
      obtain ⟨x, t, hx, hne⟩ := escapeByte_head c
      rw [jsonEscape_cons, hx] at h
      simp only [jsonEscape, nil_append, cons_append, cons.injEq] at h
      exact absurd h.1 hne
    | cons c' s' =>
      rw [jsonEscape_cons, jsonEscape_cons, append_assoc, append_assoc] at h
      obtain ⟨hc, hrest⟩ := escapeByte_append_inj h
      grind

/-! ## Numbers -/

/-- What may stand behind a value: nothing that a number could go on with. -/
def Delimited (r : Bytes) : Prop := ∀ c ∈ r.head?, isNumChar c = false

theorem NumText.takeWhile {val : Bytes} (h : NumText val) (hr : Delimited r) :
    (val ++ r).takeWhile isNumChar = val := by
  obtain ⟨first, rest, rfl, hfirst, hrest⟩ := h
  have hall : ∀ c ∈ first :: rest, isNumChar c := by
    intro c hc
    rcases mem_cons.1 hc with rfl | hc
    · rcases hfirst with rfl | hd
      · decide
      · exact isNumChar_of_digit hd
    · exact hrest c hc
  rw [takeWhile_append_of_pos hall]
  have hstop : r.takeWhile isNumChar = [] := by
    cases r with
    | nil => rfl
    | cons c r => simp [hr c rfl]
  rw [hstop, append_nil]

/-! ## Values -/

/-- The types of JSON values, by the first character of their texts. -/
def kindOf (ch : UInt8) : Nat :=
  if ch = 0x6e then 0
  else if ch = 0x74 then 1
  else if ch = 0x66 then 2
  else if ch = 0x22 then 3
  else if ch = 0x5b then 4
  else if ch = 0x7b then 5
  else 6

/-- The type of a value, with the two truth values apart. -/
def kind : UniValue → Nat
  | .null => 0
  | .bool true => 1
  | .bool false => 2
  | .str _ => 3
  | .arr _ => 4
  | .obj _ _ => 5
  | .num _ => 6

theorem write_head (h : WellFormed v) : ∃ c t, write v = c :: t ∧ kindOf c = v.kind ∧ c ≠ 0x5d := by
  cases h with
  | null => exact ⟨0x6e, _, rfl, rfl, by decide⟩
  | bool b =>
    cases b with
    | true => exact ⟨0x74, _, rfl, rfl, by decide⟩
    | false => exact ⟨0x66, _, rfl, rfl, by decide⟩
  | num hval =>
    obtain ⟨first, rest, rfl, hfirst, -⟩ := hval
    refine ⟨first, rest, rfl, ?_⟩
    rcases hfirst with rfl | hd
    · exact ⟨rfl, by decide⟩
    simp only [jsonIsDigit, decide_eq_true_eq] at hd
    have hne : ∀ c, ¬ c ≤ 0x39 → first ≠ c := by
      rintro c hc rfl
      exact hc hd.2
    have hquote : first ≠ 0x22 := by
      rintro rfl
      exact absurd hd.1 (by decide)
    simp [kindOf, kind, hquote, hne 0x6e (by decide), hne 0x74 (by decide), hne 0x66 (by decide),
      hne 0x5b (by decide), hne 0x7b (by decide), hne 0x5d (by decide)]
  | str val => exact ⟨0x22, _, rfl, rfl, by decide⟩
  | arr _ => exact ⟨0x5b, _, rfl, rfl, by decide⟩
  | obj _ _ => exact ⟨0x7b, _, rfl, rfl, by decide⟩

/-- The text of `v` ends where it ends, whatever follows. -/
def Ends (v : UniValue) : Prop :=
  ∀ w r r', WellFormed v → WellFormed w → Delimited r → Delimited r' →
    write v ++ r = write w ++ r' → v = w ∧ r = r'

def separator (rest : List UniValue) : Bytes := if rest.isEmpty then [] else ascii ","

theorem writeArray_cons (v : UniValue) (vs : List UniValue) :
    writeArray (v :: vs) = write v ++ separator vs ++ writeArray vs := by
  rw [writeArray, separator]

theorem writeObject_cons (k : Bytes) (ks : List Bytes) (v : UniValue) (vs : List UniValue) :
    writeObject (k :: ks) (v :: vs) =
      0x22 :: (jsonEscape k ++ 0x22 :: 0x3a :: (write v ++ separator vs ++ writeObject ks vs)) := by
  rw [writeObject, separator]
  simp [ascii]

theorem separator_cases (vs : List UniValue) (t : Bytes) :
    (vs = [] ∧ separator vs ++ t = t) ∨ (vs ≠ [] ∧ separator vs ++ t = 0x2c :: t) := by
  cases vs with
  | nil => exact .inl ⟨rfl, rfl⟩
  | cons v vs => exact .inr ⟨by simp, rfl⟩

theorem separator_inj {t' : Bytes} (hclose : close ≠ 0x2c)
    (h : separator vs ++ t = separator vs' ++ t') (ht : vs = [] → t.head? = some close)
    (ht' : vs' = [] → t'.head? = some close) : (vs = [] ↔ vs' = []) ∧ t = t' := by
  rcases separator_cases vs t with ⟨hv, hs⟩ | ⟨hv, hs⟩ <;>
    rcases separator_cases vs' t' with ⟨hv', hs'⟩ | ⟨hv', hs'⟩ <;>
    rw [hs, hs'] at h
  · exact ⟨by simp [hv, hv'], h⟩
  · grind
  · grind
  · exact ⟨by simp [hv, hv'], (cons.inj h).2⟩

theorem separator_delimited
    (hclose : isNumChar close = false) (ht : vs = [] → t.head? = some close) :
    Delimited (separator vs ++ t) := by
  rcases separator_cases vs t with ⟨hv, hs⟩ | ⟨-, hs⟩
  · rw [hs]
    intro c hc
    rw [ht hv, Option.mem_some_iff] at hc
    exact hc ▸ hclose
  · rw [hs]
    intro c hc
    cases hc
    decide

theorem member_append_inj {v' : UniValue} {t' : Bytes} (hnum : isNumChar close = false)
    (hclose : close ≠ 0x2c) (hends : Ends v) (hv : WellFormed v) (hv' : WellFormed v')
    (ht : vs = [] → t.head? = some close) (ht' : vs' = [] → t'.head? = some close)
    (h : write v ++ (separator vs ++ t) = write v' ++ (separator vs' ++ t')) :
    v = v' ∧ (vs = [] ↔ vs' = []) ∧ t = t' := by
  obtain ⟨hvv, hrest⟩ := hends v' _ _ hv hv' (separator_delimited hnum ht)
    (separator_delimited hnum ht') h
  exact ⟨hvv, separator_inj hclose hrest ht ht'⟩

theorem writeArray_append_inj
    (hends : ∀ v ∈ vs, Ends v) (hw : ∀ v ∈ vs, WellFormed v) (hw' : ∀ v ∈ vs', WellFormed v)
    (h : writeArray vs ++ 0x5d :: r = writeArray vs' ++ 0x5d :: r') : vs = vs' ∧ r = r' := by
  have hnil : ∀ {vs : List UniValue} {r : Bytes}, vs = [] →
      (writeArray vs ++ 0x5d :: r).head? = some 0x5d := by
    rintro _ _ rfl
    rfl
  -- an element does not start with the bracket
  have hne : ∀ {v : UniValue} {t : Bytes}, WellFormed v → (write v ++ t).head? ≠ some 0x5d := by
    intro v t hv
    obtain ⟨c, t', hc, -, hne⟩ := write_head hv
    rw [hc, cons_append]
    simpa using hne
  induction vs generalizing vs' with
  | nil =>
    cases vs' with
    | nil => exact ⟨rfl, (cons.inj h).2⟩
    | cons v' vs' =>
      refine absurd (congrArg head? h).symm ?_
      rw [writeArray_cons, append_assoc, append_assoc]
      exact hne (hw' v' mem_cons_self)
  | cons v vs ih =>
    cases vs' with
    | nil =>
      refine absurd (congrArg head? h) ?_
      rw [writeArray_cons, append_assoc, append_assoc]
      exact hne (hw v mem_cons_self)
    | cons v' vs' =>
      simp only [writeArray_cons, append_assoc] at h
      obtain ⟨hv, -, hrest⟩ := member_append_inj (by decide) (by decide)
        (hends v mem_cons_self) (hw v mem_cons_self) (hw' v' mem_cons_self) hnil hnil
        h
      obtain ⟨hvs, hr⟩ := ih (fun v hv => hends v (mem_cons_of_mem _ hv))
        (fun v hv => hw v (mem_cons_of_mem _ hv))
        (fun v hv => hw' v (mem_cons_of_mem _ hv)) hrest
      exact ⟨by rw [hv, hvs], hr⟩

theorem writeObject_append_inj {ks ks' : List Bytes} (hlen : ks.length = vs.length)
    (hlen' : ks'.length = vs'.length) (hends : ∀ v ∈ vs, Ends v) (hw : ∀ v ∈ vs, WellFormed v)
    (hw' : ∀ v ∈ vs', WellFormed v)
    (h : writeObject ks vs ++ 0x7d :: r = writeObject ks' vs' ++ 0x7d :: r') :
    ks = ks' ∧ vs = vs' ∧ r = r' := by
  have hnil : ∀ {ks : List Bytes} {vs : List UniValue} {r : Bytes}, vs = [] →
      (writeObject ks vs ++ 0x7d :: r).head? = some 0x7d := by
    rintro ks _ _ rfl
    cases ks <;> rfl
  induction vs generalizing ks ks' vs' with
  | nil =>
    obtain rfl := length_eq_zero_iff.1 hlen
    cases vs' with
    | nil =>
      obtain rfl := length_eq_zero_iff.1 hlen'
      exact ⟨rfl, rfl, (cons.inj h).2⟩
    | cons v' vs' =>
      obtain ⟨k', ks', rfl⟩ := exists_cons_of_length_eq_add_one hlen'
      exact absurd (cons.inj h).1 (by decide)
  | cons v vs ih =>
    obtain ⟨k, ks, rfl⟩ := exists_cons_of_length_eq_add_one hlen
    cases vs' with
    | nil =>
      obtain rfl := length_eq_zero_iff.1 hlen'
      exact absurd (cons.inj h).1 (by decide)
    | cons v' vs' =>
      obtain ⟨k', ks', rfl⟩ := exists_cons_of_length_eq_add_one hlen'
      simp only [writeObject_cons, cons_append, append_assoc, cons.injEq, true_and] at h
      obtain ⟨hk, hrest⟩ := jsonEscape_append_inj h
      obtain ⟨hv, -, hrest⟩ := member_append_inj (by decide) (by decide)
        (hends v mem_cons_self) (hw v mem_cons_self) (hw' v' mem_cons_self) hnil hnil
        (cons.inj hrest).2
      obtain ⟨hks, hvs, hr⟩ := ih (by simpa using hlen) (by simpa using hlen')
        (fun v hv => hends v (mem_cons_of_mem _ hv))
        (fun v hv => hw v (mem_cons_of_mem _ hv))
        (fun v hv => hw' v (mem_cons_of_mem _ hv)) hrest
      exact ⟨by rw [hk, hks], by rw [hv, hvs], hr⟩

theorem ends_of_kind (hends : ∀ w r r', WellFormed v → WellFormed w → Delimited r → Delimited r' →
    v.kind = w.kind → write v ++ r = write w ++ r' → v = w ∧ r = r') : Ends v := by
  intro w r r' hv hw hr hr' h
  refine hends w r r' hv hw hr hr' ?_ h
  obtain ⟨c, t, hc, hk, -⟩ := write_head hv
  obtain ⟨c', t', hc', hk', -⟩ := write_head hw
  rw [hc, hc', cons_append, cons_append, cons.injEq] at h
  rw [← hk, ← hk', h.1]

/-- **Texts of values** end where they end. -/
theorem write_ends (v : UniValue) : Ends v := by
  induction v using UniValue.induct with
  | hnull =>
    refine ends_of_kind fun w r r' _ _ _ _ hkind h => ?_
    cases w with
    | null => exact ⟨rfl, append_cancel_left h⟩
    | bool b => cases b <;> cases hkind
    | _ => cases hkind
  | hbool b =>
    refine ends_of_kind fun w r r' _ _ _ _ hkind h => ?_
    cases w with
    | bool b' =>
      cases b <;> cases b' <;>
        first | (cases hkind; done) | exact ⟨rfl, append_cancel_left h⟩
    | _ => cases b <;> cases hkind
  | hnum s =>
    refine ends_of_kind fun w r r' hv hw hr hr' hkind h => ?_
    cases hv with | num hs =>
    cases hw with
    | @num s' hs' =>
      have hval : s = s' := by
        rw [← hs.takeWhile hr, ← hs'.takeWhile hr']
        exact congrArg _ h
      subst hval
      exact ⟨rfl, append_cancel_left h⟩
    | bool b => cases b <;> cases hkind
    | _ => cases hkind
  | hstr s =>
    refine ends_of_kind fun w r r' _ _ _ _ hkind h => ?_
    cases w with
    | str s' =>
      have htext : ∀ s r, write (.str s) ++ r = 0x22 :: (jsonEscape s ++ 0x22 :: r) := by
        simp [write, ascii]
      rw [htext, htext] at h
      obtain ⟨hs, hr⟩ := jsonEscape_append_inj (cons.inj h).2
      exact ⟨by rw [hs], hr⟩
    | bool b => cases b <;> cases hkind
    | _ => cases hkind
  | harr vs ih =>
    refine ends_of_kind fun w r r' hv hw _ _ hkind h => ?_
    cases hv with | arr hvs =>
    cases hw with
    | arr hvs' =>
      have htext : ∀ vs r, write (.arr vs) ++ r = 0x5b :: (writeArray vs ++ 0x5d :: r) := by
        simp [write, ascii]
      rw [htext, htext] at h
      obtain ⟨heq, hr⟩ := writeArray_append_inj ih hvs hvs' (cons.inj h).2
      exact ⟨by rw [heq], hr⟩
    | bool b => cases b <;> cases hkind
    | _ => cases hkind
  | hobj ks vs ih =>
    refine ends_of_kind fun w r r' hv hw _ _ hkind h => ?_
    cases hv with | obj hlen hvs =>
    cases hw with
    | obj hlen' hvs' =>
      have htext : ∀ ks vs r,
          write (.obj ks vs) ++ r = 0x7b :: (writeObject ks vs ++ 0x7d :: r) := by
        simp [write, ascii]
      rw [htext, htext] at h
      obtain ⟨hk, hv, hr⟩ := writeObject_append_inj hlen hlen' ih hvs hvs' (cons.inj h).2
      exact ⟨by rw [hk, hv], hr⟩
    | bool b => cases b <;> cases hkind
    | _ => cases hkind

/-- **The writer is injective** on well-formed values. -/
theorem write_injective {w : UniValue} (hv : WellFormed v) (hw : WellFormed w)
    (h : write v = write w) : v = w := by
  refine (write_ends v w [] [] hv hw ?_ ?_ (by rw [h])).1
  · intro c hc
    cases hc
  · intro c hc
    cases hc

end UniValue

end BitcoinPurity
