import BitcoinPurity.Kernel.OfficialPackages
import BitcoinPurity.Lib.Uri

/-!
# Where releases and packages are downloaded from

`IsSoftwareUpdateDownloadUriAllowed` (`kernel/software_updates.cpp`), whose splitting of a URI and
that of `ExtractUriHost` are compared with RFC 3986: `downloadUri_onAllowList`.
-/

namespace BitcoinPurity

open List Uri

/-! ## Algorithm -/

inductive SoftwareUpdateTrustPolicy
  | remoteSigned
  | localFile
  deriving DecidableEq, Repr

def allowedArtifactHosts : List Bytes :=
  [ascii "downloads.bitcoinpurity.org", ascii "github.com",
    ascii "release-assets.githubusercontent.com"]

def isAllowedArtifactHost (host : Bytes) : Bool := allowedArtifactHosts.contains (toLowerAscii host)

def releasePath : Bytes := ascii "/saltduck/bitcoinpurity/releases/download/"

def isSoftwareUpdateDownloadUriAllowed (uri : Bytes) (trustPolicy : SoftwareUpdateTrustPolicy) :
    Bool :=
  if trustPolicy = .localFile then httpsPrefix.isPrefixOf uri || (ascii "http://").isPrefixOf uri
  else if !httpsPrefix.isPrefixOf uri then false
  else
    let rest := uri.drop httpsPrefix.length
    let host := before [0x2f] rest
    let slash := after [0x2f] rest
    if slash.isEmpty then false
    else if !isAllowedArtifactHost host || uri.any (ascii "\\\r\n\t ").contains then false
    else
      let path := before [0x3f, 0x23] slash
      if path.contains 0x25 then false
      -- the loop does not visit an empty last component
      else if (path.splitOn 0x2f).any fun c => c == ascii "." || c == ascii ".." then false
      else if toLowerAscii host = ascii "github.com" then
        releasePath.isPrefixOf path && decide (path.length > releasePath.length)
      else true

/-! ## Lemmas -/

variable {uri host t : Bytes}

theorem allowedHost_delimiters (h : isAllowedArtifactHost host) :
    ∀ c ∈ [0x23, 0x2f, 0x3a, 0x3f, 0x40, 0x5b], c ∉ host := by
  intro c hc hmem
  have hall : ∀ c ∈ [0x23, 0x2f, 0x3a, 0x3f, 0x40, 0x5b], ∀ allowed ∈ allowedArtifactHosts,
      (if 0x41 ≤ c ∧ c ≤ 0x5a then c + 0x20 else c) ∉ allowed := by decide +kernel
  exact hall c hc (toLowerAscii host) (contains_iff_mem.1 h) (mem_map_of_mem hmem)

theorem eq_https_append (h : httpsPrefix.isPrefixOf uri) :
    uri = httpsPrefix ++ uri.drop httpsPrefix.length := by
  obtain ⟨rest, rfl⟩ := List.isPrefixOf_iff_prefix.1 h
  rw [drop_left]

theorem split_allowedHost (h : isAllowedArtifactHost host)
    (hat : 0x40 ∉ before [0x2f, 0x3f, 0x23] t)
    (ht : ∀ c ∈ t.head?, c = 0x2f ∨ c = 0x3a) :
    split (httpsPrefix ++ (host ++ t)) = ⟨some (ascii "https"),
      some ⟨none, host, (before [0x2f, 0x3f, 0x23] t).tail?⟩,
      before [0x3f, 0x23] (after [0x2f, 0x3f, 0x23] t)⟩ := by
  have hdel := allowedHost_delimiters h
  have hstop : ∀ c ∈ [0x2f, 0x3f, 0x23], c ∉ host := fun c hc => hdel c (by simp_all; tauto)
  have hcolon : ∀ c ∈ (before [0x2f, 0x3f, 0x23] t).head?, c = 0x3a := by
    cases t with
    | nil => simp [before]
    | cons c t => obtain rfl | rfl := ht c rfl <;> simp [before]
  have hsplit := split_append (t := host ++ t) (show ascii "https" ≠ [] by decide)
    (by decide +kernel)
  rw [before_append hstop, after_append hstop, splitAuthority_append _ hat hcolon] at hsplit
  · exact hsplit
  · exact fun c hc => hdel c (by simp_all; tauto)

theorem extractUriHost_spec (h : extractUriHost uri = some host) :
    ∃ rest, uri = httpsPrefix ++ (host ++ rest) ∧ 0x40 ∉ rest ∧
      ∀ c ∈ rest.head?, c = 0x2f ∨ c = 0x3a := by
  have hcut : (fun c : UInt8 => c != 0x2f && c != 0x3a) = fun c => !([0x2f, 0x3a].contains c) := by
    funext c
    rw [Bool.eq_iff_iff]
    simp
  simp only [extractUriHost, Option.ite_none_left_eq_some, Option.some.injEq, hcut] at h
  obtain ⟨hhttps, hat, -, rfl⟩ := h
  have huri := eq_https_append (by simpa using hhttps)
  generalize uri.drop httpsPrefix.length = text at *
  refine ⟨after [0x2f, 0x3a] text, ?_, fun h => hat ?_, fun c hc => ?_⟩
  · rw [huri]
    exact congrArg _ (before_append_after _ text).symm
  · simpa using (dropWhile_suffix _).subset h
  · obtain ⟨rest, hrest⟩ := head?_eq_some_iff.1 hc
    simpa using mem_of_after_eq hrest

/-! ## Results -/

/-- **Downloads stay on the allow-list**, as RFC 3986 splits their URIs. -/
theorem downloadUri_onAllowList :
    (∀ uri policy, policy ≠ .localFile → isSoftwareUpdateDownloadUriAllowed uri policy →
      ∃ authority path, split uri = ⟨some (ascii "https"), some authority, path⟩ ∧
        authority.userinfo = none ∧ authority.port = none ∧
        toLowerAscii authority.host ∈ allowedArtifactHosts ∧
        0x25 ∉ path ∧ (∀ segment ∈ path.splitOn 0x2f, isDotSegment segment = false) ∧
        removeDotSegments path = path ∧
        (toLowerAscii authority.host = ascii "github.com" →
          ∃ name ≠ [], path = releasePath ++ name)) ∧
    ∀ uri, isOfficialDownloadUriAllowed uri .remoteSigned →
      ∃ authority, (split uri).authority = some authority ∧
        toLowerAscii authority.host = ascii "downloads.bitcoinpurity.org" := by
  refine ⟨fun uri policy hpolicy h => ?_, fun uri h => ?_⟩
  · simp only [isSoftwareUpdateDownloadUriAllowed, if_neg hpolicy, Bool.if_false_left,
      Bool.and_eq_true, Bool.not_eq_true', decide_eq_false_iff_not] at h
    obtain ⟨hhttps, hslash, hhost, hpercent, hdots, hgithub⟩ := h
    have huri := eq_https_append (by simpa using hhttps)
    generalize uri.drop httpsPrefix.length = rest at *
    obtain ⟨c, t, ht⟩ := exists_cons_of_ne_nil (by simpa using hslash)
    obtain rfl : c = 0x2f := by simpa using mem_of_after_eq ht
    have hrest := before_append_after [0x2f] rest
    rw [ht] at hrest hpercent hdots hgithub
    generalize before [0x2f] rest = host at *
    subst hrest
    obtain ⟨hhost, -⟩ : isAllowedArtifactHost host ∧ _ := by simpa using hhost
    have hsegments : ∀ segment ∈ (before [0x3f, 0x23] (0x2f :: t)).splitOn 0x2f,
        isDotSegment segment = false := by
      have hany : ¬ (_ : List Bytes).any isDotSegment := hdots
      simpa using hany
    refine ⟨⟨none, host, none⟩, before [0x3f, 0x23] (0x2f :: t), ?_, rfl, rfl,
      contains_iff_mem.1 hhost, by simpa using hpercent, hsegments, removeDotSegments_eq hsegments,
      fun hname => ?_⟩
    · exact huri ▸ split_allowedHost hhost (by simp [before]) (by simp)
    · rw [if_pos hname, Bool.and_eq_true, decide_eq_true_eq] at hgithub
      obtain ⟨name, hname⟩ := List.isPrefixOf_iff_prefix.1 hgithub.1
      grind
  · obtain ⟨host, hextract, hhost⟩ : ∃ host, extractUriHost uri = some host ∧
        isAllowedDownloadHost host := by
      simp only [isOfficialDownloadUriAllowed, Bool.if_false_left, reduceCtorEq, if_false,
        Bool.and_eq_true] at h
      exact Option.any_eq_true _ _ |>.1 h.2.2
    have heq : toLowerAscii host = ascii "downloads.bitcoinpurity.org" := by
      simpa [isAllowedDownloadHost] using hhost
    obtain ⟨rest, rfl, hat, hrest⟩ := extractUriHost_spec hextract
    have hallowed : isAllowedArtifactHost host := by
      rw [isAllowedArtifactHost, heq]
      decide
    have hbefore : 0x40 ∉ before [0x2f, 0x3f, 0x23] rest := fun h => hat (takeWhile_subset _ h)
    exact ⟨_, congrArg Parts.authority (split_allowedHost hallowed hbefore hrest), heq⟩

theorem downloadUri_onAllowList_github : isSoftwareUpdateDownloadUriAllowed
      (ascii "https://GitHub.com/saltduck/bitcoinpurity/releases/download/v1?a@b") .remoteSigned ∧
    (∃ authority path, split
      (ascii "https://GitHub.com/saltduck/bitcoinpurity/releases/download/v1?a@b") =
        ⟨some (ascii "https"), some authority, path⟩ ∧ removeDotSegments path = path) ∧
    isOfficialDownloadUriAllowed (ascii "https://downloads.bitcoinpurity.ORG:x#y") .remoteSigned ∧
    ∃ authority, (split (ascii "https://downloads.bitcoinpurity.ORG:x#y")).authority =
      some authority ∧ toLowerAscii authority.host = ascii "downloads.bitcoinpurity.org" := by
  have hrelease : isSoftwareUpdateDownloadUriAllowed
      (ascii "https://GitHub.com/saltduck/bitcoinpurity/releases/download/v1?a@b")
        .remoteSigned := by decide +kernel
  obtain ⟨authority, path, h, -, -, -, -, -, hpath, -⟩ :=
    downloadUri_onAllowList.1 _ .remoteSigned (by decide) hrelease
  refine ⟨hrelease, ⟨authority, path, h, hpath⟩, ?_⟩
  exact ⟨by decide +kernel, downloadUri_onAllowList.2 _ (by decide +kernel)⟩

end BitcoinPurity
