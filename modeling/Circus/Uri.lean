/-
# URIs and their prefixes

A URI with an authority is `scheme://authority` and a tail that is empty or
starts with one of `/`, `?` and `#` (`Parts`, read by `parts`). A prefix
authorises itself and the longer URIs that go on at a slash (`Authorises`).

`fromUri` takes two prefixes from a URI: the URI without its query and fragment,
and that up to its last slash. All they authorise has the scheme and the
authority of the URI exactly if a slash follows the authority
(`fromUri_confined_iff`): without one the last slash is the one before the
authority.
-/
import Circus.Lines

namespace Uri

def isSchemeChar (c : Char) : Bool := c.isAlphanum || c == '+' || c == '-' || c == '.'

/-- What ends an authority or a segment. -/
def isDelim (c : Char) : Bool := c == '/' || c == '?' || c == '#'

def isQueryStart (c : Char) : Bool := c == '?' || c == '#'

def IsScheme (l : List Char) : Prop := l.head?.any Char.isAlpha = true ∧ ∀ c ∈ l, isSchemeChar c = true

instance : DecidablePred IsScheme := fun _ => inferInstanceAs (Decidable (_ ∧ _))

/-- No delimiters. -/
def Plain (l : List Char) : Prop := ∀ c ∈ l, isDelim c = false

instance : DecidablePred Plain := fun l => inferInstanceAs (Decidable (∀ c ∈ l, isDelim c = false))

/-- A URI with an authority. -/
structure Parts where
  scheme : List Char
  authority : List Char
  tail : List Char
  isScheme : IsScheme scheme
  plain : Plain authority
  delim : ∀ c ∈ tail.head?, isDelim c = true

def Parts.text (p : Parts) : List Char := p.scheme ++ ':' :: '/' :: '/' :: (p.authority ++ p.tail)

theorem plain_takeWhile (l : List Char) : Plain (l.takeWhile fun c => !isDelim c) := by
  intro c hc
  have := List.mem_takeWhile_imp hc
  simpa using this

theorem delim_dropWhile (l : List Char) : ∀ c ∈ (l.dropWhile fun c => !isDelim c).head?, isDelim c = true := by
  intro c hc
  have := List.head?_dropWhile_not (fun c => !isDelim c) l
  rw [Option.mem_def.mp hc] at this
  simpa using this

def parts (uri : List Char) : Option Parts :=
  match uri.dropWhile isSchemeChar with
  | ':' :: '/' :: '/' :: rest =>
    if h : IsScheme (uri.takeWhile isSchemeChar) then
      some ⟨_, _, _, h, plain_takeWhile rest, delim_dropWhile rest⟩
    else none
  | _ => none

/-- The scheme and the authority. -/
def site (uri : List Char) : Option (List Char × List Char) := (parts uri).map fun p => (p.scheme, p.authority)

/-- The prefix itself, and every longer URI where it ends in a slash or is followed by one. -/
def Authorises (pre uri : List Char) : Prop :=
  ∃ rest, uri = pre ++ rest ∧ (rest = [] ∨ pre.getLast? = some '/' ∨ rest.head? = some '/')

def withoutQuery (uri : List Char) : List Char := uri.takeWhile fun c => !isQueryStart c

/-- Everything up to the last slash, if there is one. -/
def upToLast : List Char → Option (List Char)
  | [] => none
  | c :: l =>
    match upToLast l with
    | some p => some (c :: p)
    | none => if c = '/' then some ['/'] else none

def fromUri (uri : List Char) : List (List Char) := withoutQuery uri :: (upToLast (withoutQuery uri)).toList

/-! ### Reading -/

theorem not_isDelim_of_isSchemeChar {c : Char} (h : isSchemeChar c = true) : isDelim c = false := by
  by_contra hd
  rw [Bool.not_eq_false] at hd
  have : c = '/' ∨ c = '?' ∨ c = '#' := by simpa [isDelim, or_assoc] using hd
  rcases this with rfl | rfl | rfl <;> revert h <;> decide

variable {rest scheme l tail : List Char}

theorem takeWhile_plain (h : Plain l) (ht : ∀ c ∈ tail.head?, isDelim c = true) :
    (l ++ tail).takeWhile (fun c => !isDelim c) = l := by
  rw [List.takeWhile_append_of_pos fun c hc => by rw [h c hc]; rfl]
  cases tail with
  | nil => exact List.append_nil _
  | cons c => simp [ht c rfl]

theorem dropWhile_plain (h : Plain l) (ht : ∀ c ∈ tail.head?, isDelim c = true) :
    (l ++ tail).dropWhile (fun c => !isDelim c) = tail := by
  rw [List.dropWhile_append_of_pos fun c hc => by rw [h c hc]; rfl]
  cases tail with
  | nil => rfl
  | cons c => simp [ht c rfl]

/-- **A text is read as its parts.** -/
theorem parts_text (p : Parts) : parts p.text = some p := by
  have hscheme : p.text.takeWhile isSchemeChar = p.scheme :=
    (List.takeWhile_append_of_pos p.isScheme.2).trans (List.append_nil _)
  have hrest : p.text.dropWhile isSchemeChar = ':' :: '/' :: '/' :: (p.authority ++ p.tail) :=
    List.dropWhile_append_of_pos p.isScheme.2
  unfold parts
  rw [hrest]
  simp only [hscheme, takeWhile_plain p.plain p.delim, dropWhile_plain p.plain p.delim, dif_pos p.isScheme]

variable {p : Parts}

theorem text_of_parts {uri : List Char} (h : parts uri = some p) : p.text = uri := by
  unfold parts at h
  split at h
  next rest hrest =>
    split_ifs at h with hs
    rw [← Option.some.inj h, Parts.text, List.takeWhile_append_dropWhile, ← hrest, List.takeWhile_append_dropWhile]
  next => cases h

@[simp] theorem site_text (p : Parts) : site p.text = some (p.scheme, p.authority) := by
  rw [site, parts_text, Option.map_some]

/-! ### The last slash -/

theorem upToLast_eq_none : ∀ {l : List Char}, '/' ∉ l → upToLast l = none
  | [], _ => rfl
  | c :: l, h => by
    have hc : c ≠ '/' := fun he => h (he ▸ List.mem_cons_self)
    rw [upToLast, upToLast_eq_none fun hm => h (List.mem_cons_of_mem c hm)]
    exact if_neg hc

/-- It is not before a slash that is there. -/
theorem upToLast_append_cons : ∀ pre : List Char,
    upToLast (pre ++ '/' :: rest) = some (pre ++ '/' :: (upToLast rest).getD [])
  | [] => by
    rw [List.nil_append, List.nil_append, upToLast]
    cases upToLast rest <;> rfl
  | c :: pre => by rw [List.cons_append, upToLast, upToLast_append_cons pre, List.cons_append]

theorem isPrefix_of_upToLast : ∀ {l p : List Char}, upToLast l = some p → p ≠ [] ∧ p <+: l
  | c :: l, p, h => by
    rw [upToLast] at h
    split at h
    next q hq =>
      obtain ⟨-, hpre⟩ := isPrefix_of_upToLast hq
      rw [← Option.some.inj h]
      exact ⟨List.cons_ne_nil _ _, List.cons_prefix_cons.mpr ⟨rfl, hpre⟩⟩
    next =>
      split_ifs at h with hc
      rw [← Option.some.inj h, hc]
      exact ⟨List.cons_ne_nil _ _, List.cons_prefix_cons.mpr ⟨rfl, List.nil_prefix⟩⟩

/-! ### What prefixes authorise -/

theorem authorises_of_slash (pre rest : List Char) : Authorises (pre ++ ['/']) (pre ++ '/' :: rest) :=
  ⟨rest, by simp, .inr (.inl List.getLast?_concat)⟩

theorem withoutQuery_plain (h : Plain l) : withoutQuery (l ++ tail) = l ++ withoutQuery tail := by
  refine List.takeWhile_append_of_pos fun c hc => ?_
  have := h c hc
  simp only [isDelim, Bool.or_eq_false_iff] at this
  simp [isQueryStart, this]

theorem withoutQuery_scheme (h : IsScheme scheme) :
    withoutQuery (scheme ++ ':' :: '/' :: '/' :: rest) = scheme ++ ':' :: '/' :: '/' :: withoutQuery rest := by
  rw [withoutQuery_plain fun c hc => not_isDelim_of_isSchemeChar (h.2 c hc)]
  rfl

theorem withoutQuery_text (p : Parts) :
    withoutQuery p.text = p.scheme ++ ':' :: '/' :: '/' :: (p.authority ++ withoutQuery p.tail) := by
  rw [Parts.text, withoutQuery_scheme p.isScheme, withoutQuery_plain p.plain]

/-- The same scheme and authority with another tail. -/
theorem site_of_slash (p : Parts) (rest : List Char) :
    site (p.scheme ++ ':' :: '/' :: '/' :: (p.authority ++ '/' :: rest)) = some (p.scheme, p.authority) :=
  site_text ⟨p.scheme, p.authority, '/' :: rest, p.isScheme, p.plain, fun c hc => by
    rw [← Option.some.inj (Option.mem_def.mp hc)]; rfl⟩

/-- The prefixes of a URI with a path start with its scheme, its authority and a slash. -/
theorem of_mem_fromUri (h : p.tail = '/' :: rest) {pre : List Char}
    (hpre : pre ∈ fromUri p.text) : ∃ q, pre = p.scheme ++ ':' :: '/' :: '/' :: (p.authority ++ '/' :: q) := by
  have htext : withoutQuery p.text =
      (p.scheme ++ ':' :: '/' :: '/' :: p.authority) ++ '/' :: withoutQuery rest := by
    rw [withoutQuery_text, h]
    simp [withoutQuery, isQueryStart]
  rcases List.mem_cons.mp hpre with rfl | hpre
  · exact ⟨withoutQuery rest, by rw [htext]; simp⟩
  · rw [htext, upToLast_append_cons, Option.toList_some, List.mem_singleton] at hpre
    rw [List.append_assoc] at hpre
    exact ⟨_, hpre⟩

/-- Without a path the last slash is the one before the authority. -/
theorem mem_fromUri_of_no_path (h : p.tail.head? ≠ some '/') :
    p.scheme ++ [':', '/', '/'] ∈ fromUri p.text := by
  have htail : withoutQuery p.tail = [] := by
    cases ht : p.tail with
    | nil => rfl
    | cons c =>
      have hd : isDelim c = true := p.delim c (by rw [ht]; rfl)
      have hc : c ≠ '/' := by
        intro he
        rw [ht, he] at h
        exact h rfl
      have : isQueryStart c = true := by simpa [isDelim, isQueryStart, hc] using hd
      rw [withoutQuery, List.takeWhile_cons_of_neg (by simp [this])]
  have hslash : '/' ∉ p.authority := fun hm => by
    have := p.plain _ hm
    revert this
    decide
  have htext : withoutQuery p.text = (p.scheme ++ [':', '/']) ++ '/' :: p.authority := by
    rw [withoutQuery_text, htail]
    simp
  refine List.mem_cons_of_mem _ ?_
  rw [htext, upToLast_append_cons, upToLast_eq_none hslash]
  simp

/-- **The prefixes of a URI stay with its scheme and authority** exactly if it has a path. -/
theorem fromUri_confined_iff (p : Parts) :
    (∀ pre ∈ fromUri p.text, ∀ uri, Authorises pre uri → site uri = some (p.scheme, p.authority)) ↔
      p.tail.head? = some '/' := by
  constructor
  · intro h
    by_contra hpath
    -- an authority that is not this one
    have hplain : Plain ('x' :: p.authority) := by
      intro c hc
      rcases List.mem_cons.mp hc with rfl | hc
      · rfl
      · exact p.plain c hc
    have hauth := authorises_of_slash (p.scheme ++ [':', '/']) ('x' :: p.authority)
    rw [List.append_assoc] at hauth
    have hother := h _ (mem_fromUri_of_no_path hpath) _ hauth
    have hsite := site_text ⟨p.scheme, 'x' :: p.authority, [], p.isScheme, hplain, fun c hc => by cases hc⟩
    rw [Parts.text] at hsite
    simp only [List.append_nil] at hsite
    rw [List.append_assoc, List.cons_append, List.cons_append, List.nil_append, hsite] at hother
    have := congrArg List.length (Prod.mk.inj (Option.some.inj hother)).2
    simp at this
  · intro h pre hpre uri hauth
    obtain ⟨rest, hrest⟩ : ∃ rest, p.tail = '/' :: rest := by
      cases ht : p.tail with
      | nil => rw [ht] at h; cases h
      | cons c rest =>
        rw [ht] at h
        exact ⟨rest, congrArg (· :: rest) (Option.some.inj h)⟩
    obtain ⟨q, rfl⟩ := of_mem_fromUri hrest hpre
    obtain ⟨more, rfl, -⟩ := hauth
    have := site_of_slash p (q ++ more)
    simpa using this

end Uri
