import NavekFiber.Main.ConfigRegex

/-! # Endpoints: `parseUri` and `parseSapiUri`

`initChannels` takes an endpoint apart at `:/`, and `SyncSAPIHandler::Initialize`, where it reads the option
`channel-sapi`, takes that apart at `://`, each with a regular expression that is searched anywhere in the text.
What they find is said here without the expressions: the first separator that has a character of a name in front
of it and a character of a path behind it, with the whole name and the whole path around it. -/

namespace NavekFiber

open Regex Utils

/-- `[\w-]`. -/
def isProtoChar (b : UInt8) : Bool :=
  isDigit b || (65 ≤ b && b ≤ 90) || (97 ≤ b && b ≤ 122) || b == 95 || b == 45

/-- The regular expression of the two functions: `([\w-]+)`, the separator, `(.+)`. -/
def reUri (separator : Text) : Regex UInt8 :=
  cat [group 1 (plus (one isProtoChar)), cat (separator.map char), group 2 (plus (one isAny))]

/-- What `parseUri` and `parseSapiUri` share: the texts of the groups of the first match. -/
def searchUri (separator uri : Text) : Option (Text × Text) :=
  (regexSearch (reUri separator) uri).map fun m => (m.str 1, m.str 2)

/-- `parseUri`. -/
def parseUri (uri : Text) : Option (Text × Text) := searchUri (bytes ":/") uri

/-- `parseSapiUri`. -/
def parseSapiUri (uri : Text) : Option (Text × Text) := searchUri (bytes "://") uri

/-- A separator begins with a character that no name contains. -/
def Separates (separator : Text) : Prop := ∃ c rest, separator = c :: rest ∧ isProtoChar c = false

/-- What `reUri` matches at the front of a text: the name and the path. -/
def frontUri (separator v : Text) : Option (Text × Text) :=
  let proto := v.takeWhile isProtoChar
  let path := ((v.dropWhile isProtoChar).drop separator.length).takeWhile isAny
  if proto ≠ [] ∧ separator <+: v.dropWhile isProtoChar ∧ path ≠ [] then some (proto, path) else none

variable {separator uri v proto path : Text} {pos : ℕ} {stop : Cursor UInt8}

/-- In front of a text that is a name, the separator and a rest, `frontUri` is the name and the first line of the
rest, unless this line is empty. -/
theorem frontUri_append (rest : Text) (hsep : Separates separator) (hne : proto ≠ [])
    (hproto : ∀ c ∈ proto, isProtoChar c = true) :
    frontUri separator (proto ++ (separator ++ rest)) =
      if rest.takeWhile isAny ≠ [] then some (proto, rest.takeWhile isAny) else none := by
  obtain ⟨first, more, rfl, hfirst⟩ := hsep
  obtain ⟨htake, hdrop⟩ := takeWhile_append_of_head (w := (first :: more) ++ rest) hproto (by
    intro c hc
    obtain rfl : first = c := by simpa using hc
    exact hfirst)
  simp only [frontUri, htake, hdrop, List.drop_left]
  simp [hne]

/-- What `frontUri` finds stands at the front of the text: the name, the separator, and the path up to the end of its
line. -/
theorem exists_rest_of_frontUri (h : frontUri separator v = some (proto, path)) :
    ∃ rest, v = proto ++ (separator ++ rest) ∧ proto ≠ [] ∧ (∀ c ∈ proto, isProtoChar c = true) ∧
      rest.takeWhile isAny = path ∧ path ≠ [] := by
  rw [frontUri] at h
  split at h
  · rename_i hfront
    obtain ⟨hproto, ⟨rest, hrest⟩, hpath⟩ := hfront
    obtain ⟨rfl, rfl⟩ := Prod.mk.inj (Option.some.inj h)
    refine ⟨rest, ?_, hproto, fun c hc => List.mem_takeWhile_imp hc, ?_, hpath⟩
    · rw [hrest, List.takeWhile_append_dropWhile]
    · rw [← hrest, List.drop_left]
  · exact absurd h (by simp)

/-- `reUri` matches what `frontUri` finds, with the name and the path as its groups. -/
theorem exec_reUri_of_front (pos : ℕ) (hsep : Separates separator) (h : frontUri separator v = some (proto, path)) :
    ∃ stop, (reUri separator).exec some ⟨pos, v, []⟩ = some stop ∧ stop.str 1 = proto ∧ stop.str 2 = path := by
  obtain ⟨rest, rfl, hne, hproto, rfl, hpath⟩ := exists_rest_of_frontUri h
  obtain ⟨first, more, rfl, hfirst⟩ := hsep
  refine ⟨⟨pos + proto.length + (first :: more).length + (rest.takeWhile isAny).length,
    rest.dropWhile isAny, [(2, rest.takeWhile isAny), (1, proto)]⟩, ?_, rfl, rfl⟩
  refine exec_group_plus hne hproto (fun c hc => ?_) ?_
  · obtain rfl : first = c := by simpa using hc
    simp [hfirst]
  · rw [exec_cat_cons, exec_cat_char, if_pos (List.prefix_append _ _), List.drop_left, exec_cat_cons]
    conv_lhs => rw [← List.takeWhile_append_dropWhile (p := isAny) (l := rest)]
    refine exec_group_plus hpath (fun c hc => List.mem_takeWhile_imp hc) (fun c hc => ?_) rfl
    simp [head?_dropWhile_eq_false c hc]

/-- Where `reUri` matches, `frontUri` has a result: a shorter name would have to be followed by the separator. -/
theorem isSome_front_of_exec (hsep : Separates separator)
    (h : (reUri separator).exec some ⟨pos, v, []⟩ = some stop) : (frontUri separator v).isSome := by
  obtain ⟨proto, w, hv, hne, hproto, h⟩ := exists_of_exec_group_plus h
  obtain rfl : v = proto ++ w := hv
  rw [exec_cat_cons, exec_cat_char] at h
  split at h
  · rename_i hprefix
    obtain ⟨rest, rfl⟩ := hprefix
    rw [List.drop_left] at h
    obtain ⟨path, behind, hrest, hpne, hpath, -⟩ := exists_of_exec_group_plus h
    obtain ⟨c, path, rfl⟩ := List.exists_cons_of_ne_nil hpne
    obtain rfl : rest = c :: path ++ behind := hrest
    rw [frontUri_append _ hsep hne hproto, if_pos]
    · rfl
    · rw [List.cons_append, List.takeWhile_cons_of_pos (hpath c List.mem_cons_self)]
      exact List.cons_ne_nil _ _
  · cases h

/-- `searchUri` takes the first place in the text where `frontUri` has a result. -/
theorem searchUri_eq (hsep : Separates separator) (uri : Text) :
    searchUri separator uri = uri.tails.findSome? (frontUri separator) := by
  refine map_searchFrom (g := fun stop : Cursor UInt8 => (stop.str 1, stop.str 2)) fun pos v => ?_
  cases hfront : frontUri separator v with
  | some found =>
      obtain ⟨stop, hexec, hproto, hpath⟩ := exec_reUri_of_front pos hsep hfront
      rw [hexec, Option.map_some, hproto, hpath]
  | none =>
      rw [Option.map_eq_none_iff, Option.eq_none_iff_forall_not_mem]
      intro stop hexec
      have hsome := isSome_front_of_exec hsep hexec
      rw [hfront] at hsome
      exact absurd hsome (by simp)

/-! ### What is found -/

/-- A place where the text can be taken apart: a separator between a character of a name and a character of
a path, with this many characters in front of it. -/
def SeparatorAt (separator uri : Text) (n : ℕ) : Prop :=
  ∃ u c d v, uri = u ++ c :: (separator ++ d :: v) ∧ u.length + 1 = n ∧ isProtoChar c = true ∧ isAny d = true

/-- A text as a search takes it apart: at the first place where it can be, with the whole name in front of
the separator and the whole path behind it. -/
structure FirstUri (separator uri before proto path behind : Text) : Prop where
  /-- The parts of the text. -/
  text : uri = before ++ (proto ++ (separator ++ (path ++ behind)))
  /-- The name is not empty. -/
  proto_ne : proto ≠ []
  /-- The name has characters of a name only. -/
  proto_chars : ∀ c ∈ proto, isProtoChar c = true
  /-- The name goes on no further to the left. -/
  before_last : ∀ c ∈ before.getLast?, isProtoChar c = false
  /-- The path is not empty. -/
  path_ne : path ≠ []
  /-- The path has no end of a line in it. -/
  path_chars : ∀ c ∈ path, isAny c = true
  /-- The path goes on no further to the right. -/
  behind_head : ∀ c ∈ behind.head?, isAny c = false
  /-- The text cannot be taken apart at an earlier place. -/
  first : ∀ n, SeparatorAt separator uri n → before.length + proto.length ≤ n

/-- A text for which `frontUri` has no result can only be taken apart at the places behind its first character. -/
theorem separatorAt_cons_iff {c : UInt8} {n : ℕ} (hsep : Separates separator)
    (hfront : frontUri separator (c :: uri) = none) :
    SeparatorAt separator (c :: uri) n ↔ ∃ m, n = m + 1 ∧ SeparatorAt separator uri m := by
  constructor
  · rintro ⟨u, b, d, v, heq, rfl, hb, hd⟩
    cases u with
    | nil =>
        -- Then a name of one character would match at the front.
        have hmatch := frontUri_append (d :: v) hsep (List.cons_ne_nil b []) (by simpa using hb)
        rw [List.takeWhile_cons_of_pos hd, if_pos (by simp)] at hmatch
        rw [show c :: uri = [b] ++ (separator ++ d :: v) from heq, hmatch] at hfront
        exact absurd hfront (by simp)
    | cons e u =>
        obtain ⟨-, huri⟩ := List.cons.inj heq
        exact ⟨u.length + 1, rfl, u, b, d, v, huri, rfl, hb, hd⟩
  · rintro ⟨m, rfl, u, b, d, v, rfl, rfl, hb, hd⟩
    exact ⟨c :: u, b, d, v, rfl, rfl, hb, hd⟩

/-- Where `frontUri` has a result, the text can be taken apart behind the name. -/
theorem separatorAt_of_front (h : frontUri separator v = some (proto, path)) :
    SeparatorAt separator v proto.length := by
  obtain ⟨rest, rfl, hne, hproto, rfl, hpath⟩ := exists_rest_of_frontUri h
  obtain ⟨d, more, hrest⟩ := List.exists_cons_of_ne_nil hpath
  refine ⟨proto.dropLast, proto.getLast hne, d, more ++ rest.dropWhile isAny, ?_, ?_, ?_, ?_⟩
  · conv_lhs => rw [← List.takeWhile_append_dropWhile (p := isAny) (l := rest), hrest,
      ← List.dropLast_append_getLast hne]
    simp
  · rw [List.length_dropLast]
    have hpos := List.length_pos_iff.mpr hne
    omega
  · exact hproto _ (List.getLast_mem hne)
  · exact List.mem_takeWhile_imp (hrest ▸ List.mem_cons_self)

/-- A text cannot be taken apart within the name it begins with, since a separator does not begin with a character of
a name. -/
theorem length_le_of_separatorAt {w : Text} {n : ℕ} (hsep : Separates separator)
    (hproto : ∀ c ∈ proto, isProtoChar c = true) (h : SeparatorAt separator (proto ++ w) n) :
    proto.length ≤ n := by
  obtain ⟨first, more, rfl, hfirst⟩ := hsep
  obtain ⟨u, b, d, v, heq, rfl, -, -⟩ := h
  by_contra hlt
  have hat : (proto ++ w)[u.length + 1]? = some first := by
    rw [heq, List.getElem?_append_right (by omega)]
    simp
  rw [List.getElem?_append_left (by omega)] at hat
  rw [hproto first (List.mem_of_getElem? hat)] at hfirst
  cases hfirst

/-- When `frontUri` has a result, it is the `FirstUri` of the text, with nothing in front of it. -/
theorem FirstUri.of_front (hsep : Separates separator) (h : frontUri separator uri = some (proto, path)) :
    ∃ behind, FirstUri separator uri [] proto path behind := by
  obtain ⟨rest, rfl, hne, hproto, rfl, hpath⟩ := exists_rest_of_frontUri h
  refine ⟨rest.dropWhile isAny, ⟨?_, hne, hproto, by simp, hpath, fun c hc => List.mem_takeWhile_imp hc,
    head?_dropWhile_eq_false, fun n hn => ?_⟩⟩
  · rw [List.takeWhile_append_dropWhile, List.nil_append]
  · rw [List.length_nil, Nat.zero_add]
    exact length_le_of_separatorAt hsep hproto hn

/-- The `FirstUri` of a text is what `frontUri` finds where its name begins. -/
theorem FirstUri.front {before behind : Text} (hsep : Separates separator)
    (h : FirstUri separator uri before proto path behind) {u : Text} (hu : ∀ c ∈ u, isProtoChar c = true) :
    frontUri separator (u ++ (proto ++ (separator ++ (path ++ behind)))) = some (u ++ proto, path) := by
  have hchars : ∀ c ∈ u ++ proto, isProtoChar c = true := fun c hc =>
    (List.mem_append.mp hc).elim (hu c) (h.proto_chars c)
  have hne : u ++ proto ≠ [] := by simp [h.proto_ne]
  rw [← List.append_assoc, frontUri_append _ hsep hne hchars,
    (takeWhile_append_of_head h.path_chars h.behind_head).1, if_pos h.path_ne]

/-- When `frontUri` has no result for a text, the `FirstUri` of the text behind its first character is that of the
text. -/
theorem FirstUri.cons {c : UInt8} {before behind : Text} (hsep : Separates separator)
    (hfront : frontUri separator (c :: uri) = none) (h : FirstUri separator uri before proto path behind) :
    FirstUri separator (c :: uri) (c :: before) proto path behind := by
  refine ⟨by rw [h.text]; rfl, h.proto_ne, h.proto_chars, fun b hb => ?_, h.path_ne, h.path_chars,
    h.behind_head, fun n hn => ?_⟩
  · cases before with
    | nil =>
        -- Else a longer name would have matched at the front.
        obtain rfl : c = b := by simpa using hb
        by_contra hc
        have hmatch := h.front hsep (u := [c]) (by simpa using hc)
        rw [show [c] ++ (proto ++ (separator ++ (path ++ behind))) = c :: uri by rw [h.text]; rfl, hfront] at hmatch
        cases hmatch
    | cons e before => exact h.before_last b (by simpa using hb)
  · obtain ⟨m, rfl, hm⟩ := (separatorAt_cons_iff hsep hfront).mp hn
    have hle := h.first m hm
    rw [List.length_cons]
    omega

/-- When the `FirstUri` of a text has something in front of its name, `frontUri` has no result for the text. -/
theorem FirstUri.front_eq_none {c : UInt8} {before behind : Text}
    (h : FirstUri separator uri (c :: before) proto path behind) : frontUri separator uri = none := by
  rw [Option.eq_none_iff_forall_not_mem]
  rintro ⟨name, rest⟩ hfound
  have hle := h.first _ (separatorAt_of_front hfound)
  obtain ⟨w, hw, -, hname, -, -⟩ := exists_rest_of_frontUri hfound
  -- What is in front would be a part of the name that matched.
  have hpre : c :: before <+: name := by
    have hfront : c :: before <+: uri := h.text ▸ List.prefix_append _ _
    have hback : name <+: uri := hw ▸ List.prefix_append _ _
    exact List.prefix_of_prefix_length_le hfront hback (by omega)
  have hlast := List.getLast?_eq_some_getLast (List.cons_ne_nil c before)
  have hnot := h.before_last _ (Option.mem_def.mpr hlast)
  rw [hname _ (hpre.subset (List.getLast_mem _))] at hnot
  cases hnot

/-- When the `FirstUri` of a text has something in front of its name, it is also that of the text behind the first
character. -/
theorem FirstUri.tail {b c : UInt8} {before behind : Text}
    (h : FirstUri separator (b :: uri) (c :: before) proto path behind) :
    FirstUri separator uri before proto path behind := by
  obtain ⟨rfl, htext⟩ := List.cons.inj h.text
  refine ⟨htext, h.proto_ne, h.proto_chars, fun e he => ?_, h.path_ne, h.path_chars, h.behind_head,
    fun n hn => ?_⟩
  · obtain ⟨first, rest, rfl⟩ := List.exists_cons_of_ne_nil (l := before) (by rintro rfl; cases he)
    exact h.before_last e (by simpa using he)
  · obtain ⟨u, d, e, v, rfl, rfl, hd, he⟩ := hn
    have hle := h.first _ ⟨b :: u, d, e, v, rfl, rfl, hd, he⟩
    simp only [List.length_cons] at hle ⊢
    omega

/-- `searchUri` finds the name and the path of the `FirstUri` of the text. -/
theorem searchUri_eq_some_iff (hsep : Separates separator) :
    searchUri separator uri = some (proto, path) ↔
      ∃ before behind, FirstUri separator uri before proto path behind := by
  rw [searchUri_eq hsep]
  induction uri with
  | nil =>
      constructor
      · intro h
        simp [frontUri] at h
      · rintro ⟨before, behind, h⟩
        have hne := h.proto_ne
        have htext := h.text
        simp [hne] at htext
  | cons c uri ih =>
      rw [List.tails_cons, List.findSome?_cons]
      cases hfront : frontUri separator (c :: uri) with
      | some found =>
          obtain ⟨name, rest⟩ := found
          simp only [Option.some.injEq, Prod.mk.injEq]
          constructor
          · rintro ⟨rfl, rfl⟩
            exact ⟨[], FirstUri.of_front hsep hfront⟩
          · rintro ⟨before, behind, h⟩
            cases before with
            | nil =>
                have hmatch := h.front hsep (u := []) (by simp)
                rw [List.nil_append, ← List.nil_append (proto ++ _), ← h.text, hfront] at hmatch
                exact Prod.mk.inj (Option.some.inj hmatch)
            | cons e before =>
                rw [h.front_eq_none] at hfront
                cases hfront
      | none =>
          rw [ih]
          constructor
          · rintro ⟨before, behind, h⟩
            exact ⟨c :: before, behind, h.cons hsep hfront⟩
          · rintro ⟨before, behind, h⟩
            cases before with
            | nil =>
                have hmatch := h.front hsep (u := []) (by simp)
                rw [List.nil_append, ← List.nil_append (proto ++ _), ← h.text, hfront] at hmatch
                cases hmatch
            | cons e before => exact ⟨before, behind, h.tail⟩

/-- `searchUri` finds nothing exactly when there is no place where the text can be taken apart. -/
theorem searchUri_eq_none_iff (hsep : Separates separator) :
    searchUri separator uri = none ↔ ∀ n, ¬ SeparatorAt separator uri n := by
  rw [searchUri_eq hsep]
  induction uri with
  | nil =>
      refine iff_of_true (by simp [frontUri]) fun n h => ?_
      obtain ⟨u, c, d, v, heq, -⟩ := h
      simp at heq
  | cons c uri ih =>
      rw [List.tails_cons, List.findSome?_cons]
      cases hfront : frontUri separator (c :: uri) with
      | some found => exact iff_of_false (by simp) fun h => h _ (separatorAt_of_front hfront)
      | none =>
          rw [ih]
          constructor
          · intro h n hn
            obtain ⟨m, -, hm⟩ := (separatorAt_cons_iff hsep hfront).mp hn
            exact h m hm
          · intro h n hn
            exact h (n + 1) ((separatorAt_cons_iff hsep hfront).mpr ⟨n, rfl, hn⟩)

/-- The separator `:/` begins with a character that is not one of a name. -/
theorem separates_colon_slash : Separates (bytes ":/") := ⟨58, [47], rfl, rfl⟩

/-- The separator `://` begins with a character that is not one of a name. -/
theorem separates_colon_slashes : Separates (bytes "://") := ⟨58, [47, 47], rfl, rfl⟩

/-- What `parseUri` and `parseSapiUri` find, for any text: the first separator with a name in front of it
and a path behind it, the whole name and the whole path; and they find nothing only when there is no such
separator. -/
theorem parseUri_parseSapiUri_iff (uri proto path : Text) :
    ((parseUri uri = some (proto, path) ↔ ∃ before behind, FirstUri (bytes ":/") uri before proto path behind) ∧
        (parseUri uri = none ↔ ∀ n, ¬ SeparatorAt (bytes ":/") uri n)) ∧
      (parseSapiUri uri = some (proto, path) ↔
          ∃ before behind, FirstUri (bytes "://") uri before proto path behind) ∧
        (parseSapiUri uri = none ↔ ∀ n, ¬ SeparatorAt (bytes "://") uri n) :=
  ⟨⟨searchUri_eq_some_iff separates_colon_slash, searchUri_eq_none_iff separates_colon_slash⟩,
    searchUri_eq_some_iff separates_colon_slashes, searchUri_eq_none_iff separates_colon_slashes⟩

example : parseUri (bytes "sync-queue://sms-gate/*/") = some (bytes "sync-queue", bytes "/sms-gate/*/") := by
  decide +kernel

/-! ### The two of them -/

/-- A place where a text can be taken apart at `://` is one where it can be taken apart at `:/`. -/
theorem SeparatorAt.colon_slash {n : ℕ} (h : SeparatorAt (bytes "://") uri n) :
    SeparatorAt (bytes ":/") uri n := by
  obtain ⟨u, c, d, v, rfl, rfl, hc, -⟩ := h
  exact ⟨u, c, 47, d :: v, rfl, rfl, hc, rfl⟩

/-- A text that `parseUri` cannot take apart, `parseSapiUri` cannot take apart either; and when the path that
`parseUri` finds is a `/` with something behind it, `parseSapiUri` finds the same name, and the path without
that `/`. -/
theorem parseSapiUri_of_parseUri (uri proto script : Text) :
    (parseUri uri = none → parseSapiUri uri = none) ∧
      (parseUri uri = some (proto, bytes "/" ++ script) → script ≠ [] → parseSapiUri uri = some (proto, script)) := by
  constructor
  · intro hnone
    refine (searchUri_eq_none_iff separates_colon_slashes).mpr fun n hn => ?_
    exact (searchUri_eq_none_iff separates_colon_slash).mp hnone n hn.colon_slash
  · intro hfound hne
    obtain ⟨before, behind, h⟩ := (searchUri_eq_some_iff separates_colon_slash).mp hfound
    refine (searchUri_eq_some_iff separates_colon_slashes).mpr ⟨before, behind, ?_⟩
    exact ⟨h.text, h.proto_ne, h.proto_chars, h.before_last, hne,
      fun c hc => h.path_chars c (List.mem_append_right _ hc), h.behind_head, fun n hn => h.first n hn.colon_slash⟩

/-- When another `://` comes behind the first `:/`, `parseUri` and `parseSapiUri` may find different names. -/
example : parseUri (bytes "php:/a://b") = some (bytes "php", bytes "a://b") ∧
    parseSapiUri (bytes "php:/a://b") = some (bytes "a", bytes "b") := by
  decide +kernel

end NavekFiber
