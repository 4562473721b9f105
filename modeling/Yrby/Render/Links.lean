import Yrby.Render.LexicalHtml
import Yrby.Render.ProseMirrorHtml

/-!
# Links

Three places decide whether a document may link to a URL: `safe_href` of the Lexical renderer,
`link_open` of the ProseMirror renderer, and `safe_url?` of the Markdown writer.  Each strips
characters of its own choice and then reads a scheme.

What a browser would do with the URL is `browserScheme`.  The three filters strip everything that
a browser strips, and nothing that a scheme is made of (`filter_eq_of_browserScheme`).  So each of
them reads the scheme that the browser reads, wherever the browser reads one.
-/

namespace Yrby

open HtmlCore

namespace Links

/-! ## What a browser reads -/

def isC0OrSpace (c : Char) : Bool := c.toNat ≤ 0x20

def isTabOrNewline (c : Char) : Bool := c ∈ ['\t', '\n', '\r']

def isSchemeChar (c : Char) : Bool := c.isAlphanum || c ∈ ['+', '.', '-']

/-- Strip C0 controls and spaces at both ends, then all tabs and newlines. -/
def browserStrip (url : List Char) : List Char :=
  ((url.dropWhile isC0OrSpace).rdropWhile isC0OrSpace).filter fun c => !isTabOrNewline c

/-- A letter and the scheme characters after it, up to a colon. -/
def readScheme (url : List Char) : Option (List Char) :=
  match url.takeWhile isSchemeChar, url.dropWhile isSchemeChar with
  | c :: cs, ':' :: _ => if c.isAlpha then some (c :: cs) else none
  | _, _ => none

/-- The scheme that a browser finds in a URL, lowercased. -/
def browserScheme (url : String) : Option String :=
  (readScheme (browserStrip url.toList)).map fun scheme => .ofList (scheme.map Char.toLower)

/-! ## The Markdown writer (`lexical_markdown.rb`) -/

def safeSchemes : List String := ["http", "https", "mailto", "sms", "tel"]

/-- `[a-z]` of a pattern that ignores case: also the long s and the Kelvin sign, which fold to
letters. -/
def isLetterFolded (c : Char) : Bool := c.isAlpha || c = '\u017F' || c = '\u212A'

/-- `[a-z0-9+.-]`, likewise. -/
def isSchemeCharFolded (c : Char) : Bool := isLetterFolded c || c.isDigit || c ∈ ['+', '.', '-']

/-- `String#downcase`, of a character that the pattern lets through. -/
def downcase (c : Char) : Char := if c = '\u212A' then 'k' else c.toLower

/-- The characters that `safe_url?` keeps. -/
def keptByRuby (c : Char) : Bool := !(c.toNat ≤ 0x20 || c.toNat = 0x7F)

/-- The scheme that the pattern captures, lowercased. -/
def capturedScheme (url : String) : Option String :=
  let url := url.toList.filter keptByRuby
  match url.takeWhile isSchemeCharFolded, url.dropWhile isSchemeCharFolded with
  | c :: cs, ':' :: _ => if isLetterFolded c then some (.ofList ((c :: cs).map downcase)) else none
  | _, _ => none

/-- `safe_url?` -/
def safeUrl (url : String) : Bool :=
  match capturedScheme url with
  | none => true
  | some scheme => scheme ∈ safeSchemes

/-- The run that `runs` makes of a Markdown link. -/
structure Run where
  text : String
  link : Option String
  deriving DecidableEq

def linkRun (text url : String) : Run := if safeUrl url then ⟨text, some url⟩ else ⟨text, none⟩

/-! ## The filters read what the browser reads -/

lemma isSchemeChar_bounds {c : Char} (h : isSchemeChar c) : 0x2B ≤ c.toNat ∧ c.toNat ≤ 0x7A := by
  have letter : c.isAlpha = (c.isUpper || c.isLower) := rfl
  have upper : c.isUpper = decide (c.val ≥ 'A'.val ∧ c.val ≤ 'Z'.val) := rfl
  have lower : c.isLower = (c.val ≥ 'a'.val && c.val ≤ 'z'.val) := rfl
  simp only [isSchemeChar, Char.isAlphanum, letter, upper, lower, Char.isDigit, Bool.or_eq_true,
    Bool.and_eq_true, decide_eq_true_eq, ge_iff_le, UInt32.le_iff_toNat_le] at h
  rcases h with ((⟨lo, hi⟩ | ⟨lo, hi⟩) | ⟨lo, hi⟩) | mem
  · exact ⟨le_trans (by decide) lo, le_trans hi (by decide)⟩
  · exact ⟨le_trans (by decide) lo, le_trans hi (by decide)⟩
  · exact ⟨le_trans (by decide) lo, le_trans hi (by decide)⟩
  · simp only [List.mem_cons, List.not_mem_nil, or_false] at mem
    rcases mem with rfl | rfl | rfl <;> decide

/-- A filter that keeps none of the characters that are dropped in front keeps the rest. -/
lemma filter_dropWhile {keep drop : Char → Bool} (h : ∀ c, drop c → keep c = false)
    (cs : List Char) : (cs.dropWhile drop).filter keep = cs.filter keep := by
  induction cs with
  | nil => rfl
  | cons c cs ih =>
    by_cases hc : drop c
    · simp [hc, h c hc, ih]
    · simp [hc]

lemma filter_rdropWhile {keep drop : Char → Bool} (h : ∀ c, drop c → keep c = false)
    (cs : List Char) : (cs.rdropWhile drop).filter keep = cs.filter keep := by
  rw [List.rdropWhile, List.filter_reverse, filter_dropWhile h, List.filter_reverse,
    List.reverse_reverse]

/-- A filter that keeps nothing of what a browser strips sees what the browser sees. -/
lemma filter_browserStrip {keep : Char → Bool} (h : ∀ c, c.toNat ≤ 0x20 → keep c = false)
    (url : List Char) : (browserStrip url).filter keep = url.filter keep := by
  have ends : ∀ c, isC0OrSpace c → keep c = false :=
    fun c hc => h c (by simpa [isC0OrSpace] using hc)
  have inner : ∀ c, keep c = true → isTabOrNewline c = false := by
    intro c kept
    by_contra other
    have mem : c = '\t' ∨ c = '\n' ∨ c = '\r' := by
      simpa only [isTabOrNewline, Bool.not_eq_false, decide_eq_true_eq, List.mem_cons,
        List.not_mem_nil, or_false] using other
    have low : c.toNat ≤ 0x20 := by
      rcases mem with rfl | rfl | rfl <;> decide
    rw [h c low] at kept
    exact Bool.noConfusion kept
  rw [browserStrip, List.filter_filter]
  calc _ = ((url.dropWhile isC0OrSpace).rdropWhile isC0OrSpace).filter keep := by
        apply List.filter_congr
        intro c _
        cases hc : keep c with
        | false => rfl
        | true => simp [inner c hc]
    _ = url.filter keep := by rw [filter_rdropWhile ends, filter_dropWhile ends]

lemma readScheme_eq_some {url scheme : List Char} (h : readScheme url = some scheme) :
    ∃ c cs rest, scheme = c :: cs ∧ c.isAlpha ∧ (∀ d ∈ c :: cs, isSchemeChar d) ∧
      url = (c :: cs) ++ ':' :: rest := by
  unfold readScheme at h
  have parts := List.takeWhile_append_dropWhile (p := isSchemeChar) (l := url)
  split at h
  · rename_i c cs rest htake hdrop
    split at h
    · rename_i alpha
      refine ⟨c, cs, rest, (Option.some.inj h).symm, alpha, ?_, ?_⟩
      · intro d hd
        rw [← htake] at hd
        exact List.mem_takeWhile_imp hd
      · rw [← htake, ← hdrop, parts]
    · simp at h
  · simp at h

/-- **What a filter leaves of a URL in which a browser finds a scheme.**  The filter keeps nothing
that a browser strips and everything from the plus sign to the letter z. -/
lemma filter_eq_of_browserScheme {keep : Char → Bool}
    (strips : ∀ c, c.toNat ≤ 0x20 → keep c = false)
    (keeps : ∀ c, 0x2B ≤ c.toNat → c.toNat ≤ 0x7A → keep c = true) {url scheme : String}
    (h : browserScheme url = some scheme) :
    ∃ c cs rest, scheme = .ofList ((c :: cs).map Char.toLower) ∧ c.isAlpha ∧
      (∀ d ∈ c :: cs, isSchemeChar d) ∧ url.toList.filter keep = (c :: cs) ++ ':' :: rest := by
  obtain ⟨chars, hread, rfl⟩ := Option.map_eq_some_iff.1 h
  obtain ⟨c, cs, rest, rfl, alpha, hscheme, hurl⟩ := readScheme_eq_some hread
  refine ⟨c, cs, rest.filter keep, rfl, alpha, hscheme, ?_⟩
  have whole : (c :: cs).filter keep = c :: cs := by
    rw [List.filter_eq_self]
    intro d hd
    obtain ⟨lo, hi⟩ := isSchemeChar_bounds (hscheme d hd)
    exact keeps d lo hi
  have colon : keep ':' = true := keeps ':' (by decide) (by decide)
  rw [← filter_browserStrip strips, hurl, List.filter_append, whole, List.filter_cons_of_pos colon]

lemma ne_colon {d : Char} (h : isSchemeChar d) : d ≠ ':' := by
  rintro rfl
  exact absurd h (by decide)

/-- The renderers read the scheme that a browser reads. -/
lemma urlScheme_of_browserScheme {url scheme : String} (h : browserScheme url = some scheme) :
    urlScheme url = some scheme := by
  have strips : ∀ c : Char, c.toNat ≤ 0x20 → (!isWhitespace c && !isControl c) = false := by
    intro c low
    by_cases space : c.toNat = 0x20
    · simp [isWhitespace, space]
    · have control : isControl c = true := by simp [isControl]; omega
      simp [control]
  have keeps : ∀ c : Char, 0x2B ≤ c.toNat → c.toNat ≤ 0x7A →
      (!isWhitespace c && !isControl c) = true := by
    intro c lo hi
    have visible : isWhitespace c = false := by simp [isWhitespace]; omega
    have plain : isControl c = false := by simp [isControl]; omega
    simp [visible, plain]
  obtain ⟨c, cs, rest, rfl, alpha, hscheme, hfilter⟩ := filter_eq_of_browserScheme strips keeps h
  have before : ∀ d ∈ c :: cs, decide (d ≠ ':') = true := fun d hd => by
    simpa using ne_colon (hscheme d hd)
  have split : splitOnce ':' ((c :: cs) ++ ':' :: rest) = some (c :: cs, rest) := by
    rw [splitOnce, List.dropWhile_append_of_pos before, List.takeWhile_append_of_pos before]
    simp
  have valid : cs.all fun c => c.isAlphanum || c ∈ ['+', '.', '-'] := by
    rw [List.all_eq_true]
    exact fun d hd => hscheme d (by simp [hd])
  rw [urlScheme, hfilter, split]
  simp only [List.head?_cons, Option.any_some, alpha, List.tail_cons, valid, Bool.and_self, if_true]

lemma isSchemeCharFolded_of {d : Char} (h : isSchemeChar d) : isSchemeCharFolded d := by
  simp only [isSchemeChar, Char.isAlphanum, Bool.or_eq_true] at h
  simp only [isSchemeCharFolded, isLetterFolded, Bool.or_eq_true]
  tauto

lemma downcase_of {d : Char} (h : isSchemeChar d) : downcase d = d.toLower := by
  have ascii : d ≠ '\u212A' := by
    rintro rfl
    exact absurd h (by decide)
  rw [downcase, if_neg ascii]

/-- The Markdown writer's pattern captures the scheme that a browser reads. -/
lemma capturedScheme_of_browserScheme {url scheme : String} (h : browserScheme url = some scheme) :
    capturedScheme url = some scheme := by
  have strips : ∀ c : Char, c.toNat ≤ 0x20 → keptByRuby c = false := by
    intro c low
    simp [keptByRuby, low]
  have keeps : ∀ c : Char, 0x2B ≤ c.toNat → c.toNat ≤ 0x7A → keptByRuby c = true := by
    intro c lo hi
    simp [keptByRuby]
    omega
  obtain ⟨c, cs, rest, rfl, alpha, hscheme, hfilter⟩ := filter_eq_of_browserScheme strips keeps h
  have folded : ∀ d ∈ c :: cs, isSchemeCharFolded d = true :=
    fun d hd => isSchemeCharFolded_of (hscheme d hd)
  have colon : isSchemeCharFolded ':' = false := by decide
  have letter : isLetterFolded c = true := by simp [isLetterFolded, alpha]
  have lower : (c :: cs).map downcase = (c :: cs).map Char.toLower :=
    List.map_congr_left fun d hd => downcase_of (hscheme d hd)
  have taken : ((c :: cs) ++ ':' :: rest).takeWhile isSchemeCharFolded = c :: cs := by
    rw [List.takeWhile_append_of_pos folded]
    simp [colon]
  have dropped : ((c :: cs) ++ ':' :: rest).dropWhile isSchemeCharFolded = ':' :: rest := by
    rw [List.dropWhile_append_of_pos folded]
    simp [colon]
  rw [capturedScheme, hfilter]
  simp only [taken, dropped, letter, if_true, lower]

/-! ## What is emitted -/

/-- The opening tag of a link mark with this `href`. -/
def linkTag (link : Dict Value) (href : String) : String :=
  let attr := fun key => ProseMirrorHtml.linkAttr key (link.get key)
  "<a" ++ attr "target" ++ attr "rel" ++ attr "class" ++ " href=\"" ++ escapeAttr href ++ "\"" ++
    attr "title" ++ ">"

lemma linkOpen_eq {link : Dict Value} {url : String} (h : link.get "href" = some (.string url)) :
    ProseMirrorHtml.linkOpen link =
      linkTag link (if ProseMirrorHtml.unsafeHref "href" url then "" else url) := by
  have href : ProseMirrorHtml.linkAttr "href" (link.get "href") =
      " href=\"" ++ escapeAttr (if ProseMirrorHtml.unsafeHref "href" url then "" else url) ++
        "\"" := by
    rw [h]
    rfl
  simp [ProseMirrorHtml.linkOpen, ProseMirrorHtml.linkKeys, linkTag, href, String.join,
    String.append_assoc]

/-- What the three filters make of a URL, for the schemes that each of them allows. -/
structure Filtered (url scheme : String) : Prop where
  safeHref : LexicalHtml.safeHref url =
    if scheme ∈ LexicalHtml.linkSchemes then url else "about:blank"
  linkOpen : ∀ link : Dict Value, link.get "href" = some (.string url) →
    ProseMirrorHtml.linkOpen link =
      linkTag link (if scheme ∈ ProseMirrorHtml.linkSchemes then url else "")
  safeUrl : safeUrl url = decide (scheme ∈ safeSchemes)
  linkRun : ∀ text, linkRun text url = ⟨text, if scheme ∈ safeSchemes then some url else none⟩

/-- **No unsafe scheme gets through.**  Wherever a browser finds a scheme, each filter blocks the
URL if the scheme is not among those it allows, and emits it unchanged if it is. -/
theorem schemes_filtered (url scheme : String) (h : browserScheme url = some scheme) :
    Filtered url scheme := by
  have rendered := urlScheme_of_browserScheme h
  have captured := capturedScheme_of_browserScheme h
  have safe : safeUrl url = decide (scheme ∈ safeSchemes) := by rw [safeUrl, captured]
  refine ⟨?_, ?_, safe, ?_⟩
  · rw [LexicalHtml.safeHref, rendered]
  · intro link hlink
    rw [linkOpen_eq hlink]
    by_cases allowed : scheme ∈ ProseMirrorHtml.linkSchemes
    · simp [ProseMirrorHtml.unsafeHref, rendered, allowed]
    · simp [ProseMirrorHtml.unsafeHref, rendered, allowed]
  · intro text
    by_cases allowed : scheme ∈ safeSchemes
    · simp [linkRun, safe, allowed]
    · simp [linkRun, safe, allowed]

/-- A scheme hidden behind a space and a tab. -/
theorem schemes_filtered_script :
    browserScheme " java\tscript:alert(1)" = some "javascript" ∧
      Filtered " java\tscript:alert(1)" "javascript" :=
  ⟨by decide, schemes_filtered _ _ (by decide)⟩

end Links

end Yrby
