import Mathlib.Data.List.TakeWhile

/-!
# Splitting a URI

RFC 3986: a reference is split as in its Appendix B, an authority as in its section 3.2, and dot
segments are removed as in its section 5.2.4.

* `split_append`, `splitAuthority_append`: the parts of a text put together from parts.
* `removeDotSegments_eq`: without dot segments nothing is removed.
-/

namespace Uri

open List

def before (stop text : List UInt8) : List UInt8 := text.takeWhile fun c => !stop.contains c

def after (stop text : List UInt8) : List UInt8 := text.dropWhile fun c => !stop.contains c

structure Authority where
  userinfo : Option (List UInt8)
  host : List UInt8
  port : Option (List UInt8)

/-- A URI up to its query. -/
structure Parts where
  scheme : Option (List UInt8)
  authority : Option Authority
  path : List UInt8

/-- `[ userinfo "@" ] host [ ":" port ]`. -/
def splitAuthority (text : List UInt8) : Authority :=
  let rest := if 0x40 ∈ text then (after [0x40] text).tail else text
  -- the brackets of an IP literal may hold colons
  let literal := if rest.head? = some 0x5b then (before [0x5d] rest).length else 0
  { userinfo := if 0x40 ∈ text then some (before [0x40] text) else none
    host := rest.take literal ++ before [0x3a] (rest.drop literal)
    port := (after [0x3a] (rest.drop literal)).tail? }

/-- `^(([^:/?#]+):)?(//([^/?#]*))?([^?#]*)`. -/
def split (text : List UInt8) : Parts :=
  let name := before [0x3a, 0x2f, 0x3f, 0x23] text
  let colon := after [0x3a, 0x2f, 0x3f, 0x23] text
  let named := name ≠ [] ∧ colon.head? = some 0x3a
  let rest := if named then colon.tail else text
  let slashes := rest.take 2 = [0x2f, 0x2f]
  { scheme := if named then some name else none
    authority :=
      if slashes then some (splitAuthority (before [0x2f, 0x3f, 0x23] (rest.drop 2))) else none
    path := before [0x3f, 0x23] (if slashes then after [0x2f, 0x3f, 0x23] (rest.drop 2) else rest) }

def isDotSegment (segment : List UInt8) : Bool := segment == [0x2e] || segment == [0x2e, 0x2e]

/-- The loop of section 5.2.4; the last argument is the output buffer. -/
def removeDotSegmentsLoop : Nat → List UInt8 → List UInt8 → List UInt8
  | fuel + 1, c :: t, out =>
    if c = 0x2f then
      if before [0x2f] t = [0x2e] then removeDotSegmentsLoop fuel (c :: (after [0x2f] t).tail) out
      else if before [0x2f] t = [0x2e, 0x2e] then
        removeDotSegmentsLoop fuel (c :: (after [0x2f] t).tail)
          (out.reverse.dropWhile (· != 0x2f)).tail.reverse
      else removeDotSegmentsLoop fuel (after [0x2f] t) (out ++ c :: before [0x2f] t)
    else if isDotSegment (before [0x2f] (c :: t)) then
      removeDotSegmentsLoop fuel (after [0x2f] (c :: t)).tail out
    else removeDotSegmentsLoop fuel (after [0x2f] (c :: t)) (out ++ before [0x2f] (c :: t))
  | _, _, out => out

/-- Every round takes bytes from the input. -/
def removeDotSegments (path : List UInt8) : List UInt8 := removeDotSegmentsLoop path.length path []

variable {stop a t scheme host port : List UInt8}

theorem before_append (h : ∀ c ∈ stop, c ∉ a) : before stop (a ++ t) = a ++ before stop t :=
  takeWhile_append_of_pos fun c hc => by simpa using fun hs => h c hs hc

theorem after_append (h : ∀ c ∈ stop, c ∉ a) : after stop (a ++ t) = after stop t :=
  dropWhile_append_of_pos fun c hc => by simpa using fun hs => h c hs hc

theorem before_append_after (stop text : List UInt8) : before stop text ++ after stop text = text :=
  takeWhile_append_dropWhile

theorem not_mem_before {c : UInt8} (hc : c ∈ stop) : c ∉ before stop t := by
  intro h
  simpa [hc] using mem_takeWhile_imp h

theorem mem_of_after_eq {c : UInt8} {rest : List UInt8} (h : after stop t = c :: rest) :
    c ∈ stop := by
  have := head?_dropWhile_not (fun c => !stop.contains c) t
  rw [show t.dropWhile _ = c :: rest from h] at this
  simpa using this

theorem split_append (hne : scheme ≠ []) (h : ∀ c ∈ [0x3a, 0x2f, 0x3f, 0x23], c ∉ scheme) :
    split (scheme ++ 0x3a :: 0x2f :: 0x2f :: t) =
      ⟨some scheme, some (splitAuthority (before [0x2f, 0x3f, 0x23] t)),
        before [0x3f, 0x23] (after [0x2f, 0x3f, 0x23] t)⟩ := by
  unfold split
  rw [before_append h, after_append h]
  simp [before, after, hne]

/-- A host without delimiters, and what may follow it. -/
theorem splitAuthority_append (hhost : ∀ c ∈ [0x3a, 0x40, 0x5b], c ∉ host) (hport : 0x40 ∉ port)
    (hcolon : ∀ c ∈ port.head?, c = 0x3a) :
    splitAuthority (host ++ port) = ⟨none, host, port.tail?⟩ := by
  have hat : 0x40 ∉ host ++ port := by grind
  have hopen : (host ++ port).head? ≠ some 0x5b := by
    intro h
    cases host with
    | nil => exact absurd (hcolon _ h) (by decide)
    | cons c host => exact hhost 0x5b (by simp) (by simp_all)
  have hstop : ∀ c ∈ [0x3a], c ∉ host := by simpa using hhost 0x3a (by simp)
  have hempty : before [0x3a] port = [] ∧ after [0x3a] port = port := by
    cases port with
    | nil => exact ⟨rfl, rfl⟩
    | cons c port => simp [before, after, hcolon c rfl]
  unfold splitAuthority
  simp only [if_neg hat, if_neg hopen, take_zero, drop_zero, nil_append, before_append hstop,
    after_append hstop, hempty, append_nil]

theorem removeDotSegmentsLoop_eq {fuel : Nat} {out : List UInt8} (hfuel : t.length < fuel)
    (h : ∀ segment ∈ t.splitOn 0x2f, isDotSegment segment = false) :
    removeDotSegmentsLoop fuel (0x2f :: t) out = out ++ 0x2f :: t := by
  induction fuel generalizing t out with
  | zero => omega
  | succ fuel ih =>
    have ht := before_append_after [0x2f] t
    have hno : 0x2f ∉ before [0x2f] t := not_mem_before (by simp)
    have hmove (hseg : isDotSegment (before [0x2f] t) = false) :
        removeDotSegmentsLoop (fuel + 1) (0x2f :: t) out =
          removeDotSegmentsLoop fuel (after [0x2f] t) (out ++ 0x2f :: before [0x2f] t) := by
      simp only [isDotSegment, Bool.or_eq_false_iff, beq_eq_false_iff_ne] at hseg
      rw [removeDotSegmentsLoop, if_pos rfl, if_neg hseg.1, if_neg hseg.2]
    match hafter : after [0x2f] t with
    | [] =>
      rw [hafter, append_nil] at ht
      rw [ht] at hno hmove
      rw [hmove (h t (by simp [splitOn_eq_singleton hno])), hafter]
      cases fuel <;> rfl
    | c :: rest =>
      obtain rfl : c = 0x2f := by simpa using mem_of_after_eq hafter
      rw [hafter] at ht
      have hsplit := (congrArg _ ht.symm).trans (splitOn_append_cons_self_of_not_mem hno rest)
      grind

theorem removeDotSegments_eq (h : ∀ segment ∈ (0x2f :: t).splitOn 0x2f, isDotSegment segment = false) :
    removeDotSegments (0x2f :: t) = 0x2f :: t :=
  removeDotSegmentsLoop_eq (by simp) fun s hs => h s (by simp [splitOn_cons_eq_if_modifyHead, hs])

end Uri
