/-
The links of a listing, followed. What `url_decode` changes in a path always
shows in the names the path is made of: it makes the path shorter, slashes
aside, or puts a space where none was. So a link that is not written as it
will be read leads elsewhere.
-/
import Webserver.FileHandler
import Webserver.RequestHead
import Webserver.Serving

namespace Cxx.Paths

/-- The names in a path, however many slashes separate and end them. -/
def parts (p : Bytes) : List Bytes := (p.splitOn 47).filter (· ≠ [])

/-- The two paths are the same up to repeated and trailing slashes. -/
def SamePath (p q : Bytes) : Prop := isAbsolute p = isAbsolute q ∧ parts p = parts q

/-- A path without its slashes. -/
def solid (p : Bytes) : Bytes := p.filter (· ≠ 47)

theorem parts_append_slash (p q : Bytes) : parts (p ++ 47 :: q) = parts p ++ parts q := by
  rw [parts, List.splitOn_append_cons_self, List.filter_append]
  rfl

theorem parts_nil : parts [] = [] := by simp [parts]

theorem parts_cons_slash (q : Bytes) : parts (47 :: q) = parts q := by
  have h := parts_append_slash [] q
  rwa [parts_nil, List.nil_append, List.nil_append] at h

theorem parts_slash (p : Bytes) : parts (p ++ [47]) = parts p := by
  rw [parts_append_slash, parts_nil, List.append_nil]

theorem parts_name {name : Bytes} (hne : name ≠ []) (hslash : 47 ∉ name) : parts name = [name] := by
  rw [parts, List.splitOn_eq_singleton hslash]
  simp [hne]

theorem flatten_parts (p : Bytes) : (parts p).flatten = solid p := by
  have hsplit : ∀ l : List Bytes, (l.filter (· ≠ [])).flatten = l.flatten := by
    intro l
    induction l with
    | nil => rfl
    | cons a l ih =>
      cases a with
      | nil => simpa using ih
      | cons b a => simpa using ih
  rw [parts, hsplit]
  induction p with
  | nil => simp [solid]
  | cons b p ih =>
    rw [List.splitOn_cons_eq_if_modifyHead]
    by_cases hb : b = 47
    · simpa [hb, solid] using ih
    · obtain ⟨first, rest, hfirst⟩ := List.exists_cons_of_ne_nil (List.splitOn_ne_nil 47 p)
      rw [hfirst] at ih ⊢
      simpa [hb, solid] using ih

theorem length_solid (p : Bytes) : (parts p).flatten.length = (solid p).length :=
  congrArg _ (flatten_parts p)

theorem parts_eq_nil {p : Bytes} (h : solid p = []) : parts p = [] := by
  rw [← flatten_parts, List.flatten_eq_nil_iff] at h
  refine List.eq_nil_iff_forall_not_mem.mpr fun name hname => ?_
  have hne := (List.mem_filter.mp hname).2
  simp [h name hname] at hne

end Cxx.Paths

namespace Webserver

open Cxx Paths

namespace HttpRequest

/-! ## What decoding leaves as it is -/

/-- A `%` with two more bytes in which `sscanf` finds a number. -/
def Escaped (s : Bytes) : Prop :=
  ∃ pre b c post, s = pre ++ 37 :: b :: c :: post ∧ (scanHex [b, c]).isSome = true

theorem escaped_cons {a : UInt8} {s : Bytes} (h : Escaped (a :: s)) :
    Escaped s ∨ a = 37 ∧ ∃ b c post, s = b :: c :: post ∧ (scanHex [b, c]).isSome = true := by
  obtain ⟨pre, b, c, post, heq, hscan⟩ := h
  cases pre with
  | nil =>
    obtain ⟨rfl, rfl⟩ := List.cons.inj heq
    exact .inr ⟨rfl, b, c, post, rfl, hscan⟩
  | cons a' pre =>
    obtain ⟨rfl, rfl⟩ := List.cons.inj heq
    exact .inl ⟨pre, b, c, post, rfl, hscan⟩

theorem Escaped.cons {s : Bytes} (h : Escaped s) (a : UInt8) : Escaped (a :: s) := by
  obtain ⟨pre, b, c, post, rfl, hscan⟩ := h
  exact ⟨a :: pre, b, c, post, rfl, hscan⟩

theorem length_solid_cons (b : UInt8) (s : Bytes) :
    (solid (b :: s)).length = (if b = 47 then 0 else 1) + (solid s).length := by
  by_cases hb : b = 47
  · simp [solid, hb]
  · simp only [solid, hb, List.filter_cons, ne_eq, not_false_eq_true, decide_true, if_true,
      List.length_cons, if_false]
    omega

/-- A space weighs what the plus sign does. -/
theorem length_solid_plus (a : UInt8) (s : Bytes) :
    (solid ((if a = 43 then 32 else a) :: s)).length = (if a = 47 then 0 else 1) + (solid s).length := by
  rw [length_solid_cons]
  by_cases ha : a = 43
  · simp [ha]
  · simp [ha]

/-- The digits of an escape are not both slashes. -/
theorem length_solid_escape {b c : UInt8} {v : Nat} (h : scanHex [b, c] = some v) (s : Bytes) :
    (solid s).length + 2 ≤ (solid (37 :: b :: c :: s)).length := by
  have hslashes : ¬ (b = 47 ∧ c = 47) := by
    rintro ⟨rfl, rfl⟩
    have hnone : scanHex [47, 47] = none := by decide
    rw [hnone] at h
    cases h
  rw [length_solid_cons, length_solid_cons, length_solid_cons, if_neg (by decide)]
  by_cases hb : b = 47
  · rw [if_neg fun hc => hslashes ⟨hb, hc⟩]
    omega
  · rw [if_neg hb]
    omega

/-- Decoding makes no path longer, slashes aside, and one with an escape shorter. -/
theorem length_solid_urlDecode (s : Bytes) :
    (solid (urlDecode s)).length ≤ (solid s).length ∧
      (Escaped s → (solid (urlDecode s)).length < (solid s).length) := by
  fun_induction urlDecode s with
  | case1 => exact ⟨le_rfl, fun ⟨pre, b, c, post, h, _⟩ => absurd h (by simp)⟩
  | case2 a =>
    refine ⟨?_, fun h => ?_⟩
    · rw [length_solid_plus, length_solid_cons]
    · rcases escaped_cons h with ⟨pre, b, c, post, h, -⟩ | ⟨-, b, c, post, h, -⟩
      · simp at h
      · cases h
  | case3 a b ih =>
    rw [length_solid_plus, length_solid_cons]
    refine ⟨by omega, fun h => ?_⟩
    rcases escaped_cons h with h | ⟨-, b, c, post, h, -⟩
    · have := ih.2 h
      omega
    · cases h
  | case4 b c s v hv ih =>
    have hdigits := length_solid_escape hv s
    rw [length_solid_cons]
    have hle : (if UInt8.ofNat v = 47 then 0 else 1) ≤ 1 := by split <;> omega
    exact ⟨by omega, fun _ => by omega⟩
  | case5 b c s hv ih =>
    rw [length_solid_cons, length_solid_cons]
    refine ⟨by omega, fun h => ?_⟩
    rcases escaped_cons h with h | ⟨-, b', c', post, h, hscan⟩
    · have := ih.2 h
      omega
    · cases h
      rw [hv] at hscan
      cases hscan
  | case6 a b c s ha ih =>
    rw [length_solid_plus, length_solid_cons]
    refine ⟨by omega, fun h => ?_⟩
    rcases escaped_cons h with h | ⟨ha', -⟩
    · have := ih.2 h
      omega
    · exact absurd ha' ha

theorem urlDecode_of_not_escaped {s : Bytes} (h : ¬ Escaped s) :
    urlDecode s = s.map fun b => if b = 43 then 32 else b := by
  fun_induction urlDecode s with
  | case1 => rfl
  | case2 a => rfl
  | case3 a b ih =>
    rw [ih fun h' => h (h'.cons a)]
    rfl
  | case4 b c s v hv ih => exact absurd ⟨[], b, c, s, rfl, by rw [hv]; rfl⟩ h
  | case5 b c s hv ih =>
    rw [ih fun h' => h (h'.cons 37)]
    rfl
  | case6 a b c s ha ih =>
    rw [ih fun h' => h (h'.cons a)]
    rfl

/-- A text that is read as it stands. -/
def Literal (s : Bytes) : Prop := 43 ∉ s ∧ ¬ Escaped s

theorem Literal.urlDecode {s : Bytes} (h : Literal s) : urlDecode s = s := by
  rw [urlDecode_of_not_escaped h.2]
  refine (List.map_congr_left fun b hb => ?_).trans (List.map_id s)
  exact if_neg fun hplus : b = 43 => h.1 (hplus ▸ hb)

/-- **Decoding keeps the names of a path without spaces only if it keeps
every byte.** -/
theorem parts_urlDecode_iff {s : Bytes} (hs : 32 ∉ s) : parts (urlDecode s) = parts s ↔ Literal s := by
  constructor
  · intro hparts
    have hsolid : solid (urlDecode s) = solid s := by rw [← flatten_parts, hparts, flatten_parts]
    have hescaped : ¬ Escaped s := fun h => by
      have hlt := (length_solid_urlDecode s).2 h
      rw [hsolid] at hlt
      omega
    refine ⟨fun hplus => ?_, hescaped⟩
    have hspace : (32 : UInt8) ∈ solid (urlDecode s) := by
      rw [urlDecode_of_not_escaped hescaped]
      exact List.mem_filter.mpr ⟨List.mem_map.mpr ⟨43, hplus, rfl⟩, by decide⟩
    rw [hsolid] at hspace
    exact hs (List.mem_filter.mp hspace).1
  · intro h
    rw [h.urlDecode]

/-! ## What is read of a target -/

/-- A target up to its query, or to the space that ends it. -/
def pathPart (target : Bytes) : Bytes := target.takeWhile fun b => b ≠ 32 ∧ b ≠ 63

theorem escaped_cons_iff {a : UInt8} {s : Bytes} (ha : a ≠ 37) : Escaped (a :: s) ↔ Escaped s := by
  refine ⟨fun h => ?_, fun h => h.cons a⟩
  rcases escaped_cons h with h | ⟨ha', -⟩
  · exact h
  · exact absurd ha' ha

theorem literal_cons_slash (s : Bytes) : Literal (47 :: s) ↔ Literal s := by
  rw [Literal, Literal, escaped_cons_iff (by decide), List.mem_cons, or_iff_right (by decide)]

theorem urlDecode_eq_nil {s : Bytes} : urlDecode s = [] ↔ s = [] := by
  refine ⟨fun h => ?_, fun h => by rw [h, urlDecode]⟩
  rcases s with _ | ⟨a, _ | ⟨b, _ | ⟨c, s⟩⟩⟩
  · rfl
  · cases h
  · cases h
  · unfold urlDecode at h
    split at h
    · split at h <;> cases h
    · cases h

theorem pathPart_eq_nil {s : Bytes} (hne : s ≠ []) :
    pathPart s = [] ↔ s.head? = some 32 ∨ s.head? = some 63 := by
  obtain ⟨b, s, rfl⟩ := List.exists_cons_of_ne_nil hne
  by_cases hb : b = 32 ∨ b = 63
  · rcases hb with rfl | rfl <;> simp [pathPart]
  · rw [not_or] at hb
    simp [pathPart, hb]

/-- What is read names what was written only if it is all of it, as it stands. -/
theorem parts_pathPart_iff (s : Bytes) :
    parts (urlDecode (pathPart s)) = parts s ↔ (∀ b ∈ s, b ≠ 32 ∧ b ≠ 63) ∧ Literal s := by
  have hspace : (32 : UInt8) ∉ pathPart s := fun h => by simpa using List.mem_takeWhile_imp h
  constructor
  · intro hparts
    have hall : pathPart s = s := by
      have hsplit := List.takeWhile_append_dropWhile (p := fun b : UInt8 => b ≠ 32 ∧ b ≠ 63) (l := s)
      cases hrest : s.dropWhile fun b => b ≠ 32 ∧ b ≠ 63 with
      | nil =>
        rw [hrest, List.append_nil] at hsplit
        exact hsplit
      | cons b rest =>
        -- the byte that ends the path would be missing
        have hb := List.head?_dropWhile_not (fun b : UInt8 => decide (b ≠ 32 ∧ b ≠ 63)) s
        rw [hrest] at hb hsplit
        have hslash : b ≠ 47 := by
          rintro rfl
          simp at hb
        have hle := (length_solid_urlDecode (pathPart s)).1
        have hsame : solid (urlDecode (pathPart s)) = solid s := by
          rw [← flatten_parts, hparts, flatten_parts]
        have hlen : (solid s).length = (solid (pathPart s)).length + (solid (b :: rest)).length := by
          rw [← List.length_append, solid, solid, solid, ← List.filter_append, pathPart, hsplit]
        rw [hsame, hlen, length_solid_cons, if_neg hslash] at hle
        omega
    rw [hall] at hparts hspace
    refine ⟨fun b hb => ?_, (parts_urlDecode_iff hspace).mp hparts⟩
    simpa using List.takeWhile_eq_self_iff.mp hall b hb
  · rintro ⟨hplain, hliteral⟩
    have hall : pathPart s = s := List.takeWhile_eq_self_iff.mpr fun b hb => by simpa using hplain b hb
    rw [hall, hliteral.urlDecode]

end HttpRequest

open HttpRequest (Escaped Literal pathPart)

namespace FileHandler

/-! ## Links -/

/-- The link of an entry, given whether it is a directory. -/
def entryLink (requestPath filename : Bytes) (isDirectory : Bool) : Bytes :=
  linkPath requestPath filename ++ if isDirectory then bytes "/" else []

/-- What a request path adds to the root. -/
def relativePath (defaultFile requestPath : Bytes) : Bytes :=
  let path := if requestPath.head? = some 47 then requestPath.tail else requestPath
  if path = [] then defaultFile else path

/-- The link of an entry is read as it is written and not resolved as `/` is;
or all that is read of it is `/`, and the default file is that entry. -/
def LinkHolds (defaultFile requestPath link filename : Bytes) : Prop :=
  ((∀ b ∈ link, b ≠ 32 ∧ b ≠ 63) ∧ Literal link ∧ (requestPath = bytes "/" → parts defaultFile = [])) ∨
  (requestPath.tail.head? = some 32 ∨ requestPath.tail.head? = some 63) ∧
    parts defaultFile = parts requestPath ++ [filename]

/-- The name of an entry, in visible characters. -/
structure Visible (filename : Bytes) : Prop where
  ne_nil : filename ≠ []
  visible : ∀ b ∈ filename, 33 ≤ b ∧ b ≤ 126
  no_slash : 47 ∉ filename

theorem Visible.isSpace {filename : Bytes} (hf : Visible filename) {b : UInt8} (hb : b ∈ filename)
    (hs : isSpace b = true) : b = 32 := by
  have hlow := (hf.visible b hb).1
  simp only [Cxx.isSpace, Bool.or_eq_true, beq_iff_eq, Bool.and_eq_true, decide_eq_true_eq] at hs
  simp only [UInt8.le_iff_toNat_le] at hlow hs
  have hbounds : (33 : UInt8).toNat = 33 ∧ (13 : UInt8).toNat = 13 := ⟨rfl, rfl⟩
  rcases hs with hs | ⟨-, hhigh⟩
  · exact hs
  · omega

variable {defaultFile requestPath filename : Bytes} {isDirectory : Bool}

theorem mem_entryLink {b : UInt8} (hb : b ∈ entryLink requestPath filename isDirectory) :
    b ∈ requestPath ∨ b ∈ filename ∨ b = 47 := by
  have hslash : bytes "/" = [47] := by decide
  rw [entryLink, linkPath, hslash] at hb
  split_ifs at hb <;> simp only [List.mem_append, List.mem_singleton, List.not_mem_nil] at hb <;> tauto

theorem resolvePath_eq (h : FileHandler) (requestPath : Bytes) :
    h.resolvePath requestPath = h.documentRoot ++ relativePath h.defaultFile requestPath := rfl

theorem relativePath_cons (defaultFile path : Bytes) :
    relativePath defaultFile (47 :: path) = if path = [] then defaultFile else path := rfl

/-- A link begins as the path of its listing, and goes on. -/
theorem entryLink_cons (path filename : Bytes) (isDirectory : Bool) (hne : filename ≠ []) :
    ∃ rest, entryLink (47 :: path) filename isDirectory = 47 :: rest ∧ rest ≠ [] ∧
      rest.head? = (if path = [] then filename.head? else path.head?) ∧
      parts rest = parts path ++ parts filename := by
  have hmark : ∀ p, parts (p ++ if isDirectory then bytes "/" else []) = parts p := by
    intro p
    cases isDirectory with
    | false => exact congrArg parts (List.append_nil p)
    | true => exact parts_slash p
  by_cases hpath : path = []
  · refine ⟨filename ++ if isDirectory then bytes "/" else [], by rw [hpath]; rfl, by simp [hne], ?_, ?_⟩
    · rw [if_pos hpath, List.head?_append_of_ne_nil _ hne]
    · rw [hmark, hpath, parts_nil, List.nil_append]
  · have hlast : (47 :: path).getLast? = path.getLast? := by
      rw [List.getLast?_cons, List.getLast?_eq_some_getLast hpath]
      rfl
    by_cases hslash : path.getLast? = some 47
    · obtain ⟨p, rfl⟩ := List.getLast?_eq_some_iff.mp hslash
      refine ⟨p ++ [47] ++ filename ++ if isDirectory then bytes "/" else [], ?_, by simp, ?_, ?_⟩
      · rw [entryLink, linkPath, hlast, if_neg (by simp)]
        rfl
      · rw [if_neg hpath, List.append_assoc, List.head?_append_of_ne_nil _ hpath]
      · rw [hmark, parts_slash, List.append_assoc, List.singleton_append, parts_append_slash]
    · refine ⟨path ++ [47] ++ filename ++ if isDirectory then bytes "/" else [], ?_, by simp, ?_, ?_⟩
      · rw [entryLink, linkPath, hlast, if_pos hslash]
        rfl
      · rw [if_neg hpath, List.append_assoc, List.append_assoc, List.head?_append_of_ne_nil _ hpath]
      · rw [hmark, List.append_assoc, List.singleton_append, parts_append_slash]

theorem linkHolds_iff (path : Bytes) (hf : Visible filename) :
    parts (relativePath defaultFile (HttpRequest.urlDecode (pathPart
        (entryLink (47 :: path) filename isDirectory)))) =
      parts (relativePath defaultFile (47 :: path)) ++ [filename] ↔
    LinkHolds defaultFile (47 :: path) (entryLink (47 :: path) filename isDirectory) filename := by
  obtain ⟨rest, hlink, hne, hhead, hparts⟩ := entryLink_cons path filename isDirectory hf.ne_nil
  rw [parts_name hf.ne_nil hf.no_slash] at hparts
  have hread : HttpRequest.urlDecode (pathPart (47 :: rest)) =
      47 :: HttpRequest.urlDecode (pathPart rest) := by
    rw [pathPart, List.takeWhile_cons_of_pos (by decide), HttpRequest.urlDecode_cons (by decide) (by decide)]
    rfl
  have hplain : (∀ b ∈ 47 :: rest, b ≠ 32 ∧ b ≠ 63) ↔ ∀ b ∈ rest, b ≠ 32 ∧ b ≠ 63 := by
    rw [List.forall_mem_cons, and_iff_right (by decide)]
  have hslash : 47 :: path = bytes "/" ↔ path = [] := by
    rw [show bytes "/" = [47] by decide, List.cons.injEq, and_iff_right rfl]
  have hlonger : ∀ l : List Bytes, l ≠ l ++ [filename] := by simp
  rw [hlink, hread, relativePath_cons, relativePath_cons, LinkHolds, hplain, HttpRequest.literal_cons_slash,
    hslash, List.tail_cons, parts_cons_slash]
  by_cases hstop : pathPart rest = []
  · -- nothing but the first slash is read
    have hfirst := (HttpRequest.pathPart_eq_nil hne).mp hstop
    have hnot : ¬ ∀ b ∈ rest, b ≠ 32 ∧ b ≠ 63 := by
      intro hall
      rcases hfirst with hb | hb
      · exact (hall 32 (List.mem_of_head? hb)).1 rfl
      · exact (hall 63 (List.mem_of_head? hb)).2 rfl
    rw [if_pos (HttpRequest.urlDecode_eq_nil.mpr hstop)]
    by_cases hpath : path = []
    · simp only [hpath, if_true, hnot, false_and, List.head?_nil, reduceCtorEq, or_false, iff_false]
      exact hlonger _
    · rw [if_neg hpath] at hhead
      rw [hhead] at hfirst
      simp only [hpath, if_false, hnot, false_and, false_or, hfirst, true_and]
  · have hfirst := mt (HttpRequest.pathPart_eq_nil hne).mpr hstop
    rw [if_neg (mt HttpRequest.urlDecode_eq_nil.mp hstop)]
    by_cases hpath : path = []
    · -- the names of the default file would come before the entry's
      rw [hpath, parts_nil, List.nil_append] at hparts
      simp only [hpath, if_true, List.head?_nil, reduceCtorEq, or_false, false_and, forall_const]
      have hempty : parts (HttpRequest.urlDecode (pathPart rest)) = parts defaultFile ++ [filename] →
          parts defaultFile = [] := by
        intro heq
        have hflat := congrArg (fun l => l.flatten.length) heq
        simp only [List.flatten_append, List.length_append, length_solid] at hflat
        have hrest : ([filename] : List Bytes).flatten.length = (solid rest).length := by
          rw [← hparts, length_solid]
        have hdecode := (HttpRequest.length_solid_urlDecode (pathPart rest)).1
        have hpart : (solid (pathPart rest)).length ≤ (solid rest).length :=
          ((List.takeWhile_sublist _).filter _).length_le
        exact parts_eq_nil (List.eq_nil_of_length_eq_zero (by omega))
      constructor
      · intro heq
        have hnil := hempty heq
        rw [hnil, List.nil_append, ← hparts, HttpRequest.parts_pathPart_iff] at heq
        exact ⟨heq.1, heq.2, hnil⟩
      · rintro ⟨hall, hliteral, hnil⟩
        rw [hnil, List.nil_append, ← hparts, HttpRequest.parts_pathPart_iff]
        exact ⟨hall, hliteral⟩
    · rw [if_neg hpath] at hhead
      rw [hhead] at hfirst
      rw [if_neg hpath, ← hparts, HttpRequest.parts_pathPart_iff]
      simp only [hpath, hfirst, false_and, or_false, false_implies, and_true]

/-! ## Requests for a link -/

/-- No path is safe beneath a root without a name. -/
theorem documentRoot_ne_nil {h : FileHandler} {fs : FileSystem} {path : Bytes}
    (hsafe : h.isSafePath fs path = true) : h.documentRoot ≠ [] := by
  intro hroot
  have hcanonical : fs.canonical h.documentRoot = .error .notFound := by
    rw [hroot]
    rfl
  rw [isSafePath, checkPath, hcanonical] at hsafe
  cases hsafe

/-- The root of a handler from its constructor ends with a slash. -/
theorem Configured.documentRoot {documentRoot defaultFile : Bytes} {enableCache : Bool}
    {cacheSizeMb : Nat} {h : FileHandler}
    (hc : Configured (.make documentRoot defaultFile enableCache cacheSizeMb) h)
    (hne : h.documentRoot ≠ []) : ∃ root, h.documentRoot = root ++ [47] := by
  rw [hc] at hne ⊢
  simp only [FileHandler.make] at hne ⊢
  split
  · exact ⟨documentRoot, rfl⟩
  · next hslash =>
    rw [if_neg hslash] at hne
    exact List.getLast?_eq_some_iff.mp (by simpa [hne] using hslash)

end FileHandler

namespace HttpRequest

theorem takeWhile_append_cons {p : UInt8 → Bool} {b : UInt8} (hb : p b = false) (s t : Bytes) :
    (s ++ b :: t).takeWhile p = s.takeWhile p ∧ (s ++ b :: t).dropWhile p = s.dropWhile p ++ b :: t := by
  induction s with
  | nil => simp [hb]
  | cons a s ih => cases ha : p a <;> simp [ha, ih]

theorem takeWhile_congr_mem {p q : UInt8 → Bool} {s : Bytes} (h : ∀ b ∈ s, p b = q b) :
    s.takeWhile p = s.takeWhile q := by
  induction s with
  | nil => rfl
  | cons b s ih =>
    rw [List.takeWhile_cons, List.takeWhile_cons, h b List.mem_cons_self,
      ih fun b' hb' => h b' (List.mem_cons_of_mem _ hb')]

theorem word_isSome {s : Bytes} {b : UInt8} (hmem : b ∈ s) (hb : isSpace b = false) :
    ∃ w, word s = some w := by
  have hne : s.dropWhile isSpace ≠ [] := by
    intro hnil
    have := List.dropWhile_eq_nil_iff.mp hnil b hmem
    rw [hb] at this
    cases this
  exact ⟨_, if_neg hne⟩

/-- The path of a GET is what is read of its target. -/
theorem path_parse_get {target version : Bytes} (hslash : target.head? = some 47)
    (hspace : ∀ b ∈ target, isSpace b = true → b = 32)
    (hversion : version = bytes "HTTP/1.0" ∨ version = bytes "HTTP/1.1") (rest : Bytes) :
    (parse (bytes "GET " ++ target ++ bytes " " ++ version ++ bytes "\r\n" ++ rest)).path =
      urlDecode (pathPart target) := by
  have hlf : lf ∉ version ∧ ∃ b ∈ version, isSpace b = false := by
    rcases hversion with rfl | rfl <;> decide
  have hget : bytes "GET" ≠ [] ∧ (∀ b ∈ bytes "GET", isSpace b = false) ∧ lf ∉ bytes "GET" := by
    decide +kernel
  have hraw : bytes "GET " ++ target ++ bytes " " ++ version ++ bytes "\r\n" ++ rest =
      (bytes "GET" ++ 32 :: (target ++ 32 :: version) ++ [cr]) ++ lf :: rest := by
    have htexts : bytes "GET " = bytes "GET" ++ [32] ∧ bytes " " = [32] ∧ bytes "\r\n" = [cr, lf] := by
      decide
    rw [htexts.1, htexts.2.1, htexts.2.2]
    simp
  have hline : lf ∉ bytes "GET" ++ 32 :: (target ++ 32 :: version) ++ [cr] := by
    have htarget : lf ∉ target := fun h => absurd (hspace lf h (by decide)) (by decide)
    have hother : lf ≠ 32 ∧ lf ≠ cr := by decide
    simp [hget.2.2, htarget, hlf.1, hother]
  rw [path_parse ((congrArg _ hraw).trans (getlines_line hline rest)), stripCr_concat, parseRequestLine,
    requestWords_append hget.1 hget.2.1]
  obtain ⟨t, rfl⟩ : ∃ t, target = 47 :: t := by
    cases target with
    | nil => cases hslash
    | cons b t => exact ⟨t, congrArg (· :: t) (Option.some.inj hslash)⟩
  obtain ⟨htake, hdrop⟩ :=
    takeWhile_append_cons (p := fun b => !isSpace b) (b := 32) rfl (47 :: t) version
  have hword : word (47 :: t ++ 32 :: version) = some ((47 :: t).takeWhile fun b => !isSpace b,
      ((47 :: t).dropWhile fun b => !isSpace b) ++ 32 :: version) := by
    have hstart : (47 :: t ++ 32 :: version).dropWhile isSpace = 47 :: t ++ 32 :: version :=
      List.dropWhile_cons_of_neg (by decide)
    rw [word, hstart, if_neg (by simp), htake, hdrop]
  obtain ⟨b, hb, hsolid⟩ := hlf.2
  obtain ⟨w, hw⟩ := word_isSome (s := ((47 :: t).dropWhile fun b => !isSpace b) ++ 32 :: version)
    (List.mem_append_right _ (List.mem_cons_of_mem _ hb)) hsolid
  rw [hword]
  simp only [Option.bind_eq_bind, Option.bind_some, hw, Option.pure_def]
  rw [cut_fst, List.takeWhile_takeWhile, pathPart]
  refine congrArg _ (takeWhile_congr_mem fun b hb => ?_)
  by_cases h32 : b = 32
  · simp [h32, isSpace]
  · have hsolid : isSpace b = false := Bool.eq_false_iff.mpr fun hs => h32 (hspace b hb hs)
    simp [h32, hsolid]

/-- The path of a valid request begins with a slash and has no other white
space than spaces. -/
theorem path_of_valid {raw : Bytes} (h : (parse raw).valid = true) :
    (parse raw).path.head? = some 47 ∧ ∀ b ∈ (parse raw).path, isSpace b = true → b = 32 := by
  have hspaces : ∀ n : Fin 256, isSpace (UInt8.ofFin n) = true → isControl (UInt8.ofFin n) = false →
      n = 32 := by
    decide +kernel
  have hrequest : (parse raw).isRequestValid = true := by
    by_cases hraw : raw = []
    · rw [hraw] at h
      cases h
    · rw [parse, if_neg hraw] at h ⊢
      exact h
  unfold isRequestValid at hrequest
  split at hrequest
  · cases hrequest
  split at hrequest
  · cases hrequest
  next hslash =>
  split at hrequest
  · cases hrequest
  split at hrequest
  · cases hrequest
  next hcontrol =>
  refine ⟨not_not.mp hslash, fun b hb hspace => ?_⟩
  have hb' : isControl b = false := by
    simp only [List.any_eq_true, not_exists, not_and] at hcontrol
    exact Bool.eq_false_iff.mpr (hcontrol b hb)
  exact congrArg UInt8.ofFin (hspaces b.toFin hspace hb')

end HttpRequest

namespace FileHandler

/-! ## Following the links of a listing -/

/-- The rows of a listing hold the links to its entries. -/
theorem entryLink_listed (texts : EntryTexts) {fs : FileSystem} {dirPath : Bytes} (requestPath date : Bytes)
    {entries : List (Bytes × Bool)} (hentries : listedEntries fs dirPath = .ok entries)
    {filename : Bytes} {isDirectory : Bool} (hmem : (filename, isDirectory) ∈ entries) :
    bytes "<a href=\"" ++ entryLink requestPath filename isDirectory ++ bytes "\">" <:+:
      (createDirectoryListing texts fs dirPath requestPath date).body := by
  have hpage : ∃ pre post, listingPage texts fs dirPath requestPath = .ok (pre ++
      entries.flatMap (fun e => entryRow texts fs dirPath requestPath e.1 e.2) ++ post) := by
    refine ⟨listingHead requestPath ++ parentRow requestPath, bytes "</table>\n" ++ bytes "<hr>\n" ++
      bytes "<p><em>MultithreadedWebServer/1.0</em></p>\n" ++ bytes "</body></html>\n", ?_⟩
    refine bind_eq_ok.mpr ⟨entries, hentries, congrArg Except.ok ?_⟩
    simp only [List.append_assoc]
  obtain ⟨pre, post, hpage⟩ := hpage
  have hrow : bytes "<a href=\"" ++ entryLink requestPath filename isDirectory ++ bytes "\">" <:+:
      entryRow texts fs dirPath requestPath filename isDirectory := by
    have htag : bytes "<td><a href=\"" = bytes "<td>" ++ bytes "<a href=\"" := by decide
    rw [entryRow, htag]
    simp only [entryLink, List.append_assoc]
    refine List.IsInfix.trans (List.IsPrefix.isInfix ?_)
      ((List.suffix_append _ _).trans (List.suffix_append _ _)).isInfix
    simp only [List.prefix_append_right_inj]
    exact List.prefix_append _ _
  have hrows : entryRow texts fs dirPath requestPath filename isDirectory <:+:
      entries.flatMap fun e => entryRow texts fs dirPath requestPath e.1 e.2 := by
    rw [List.flatMap_def]
    exact List.infix_of_mem_flatten (List.mem_map.mpr ⟨(filename, isDirectory), hmem, rfl⟩)
  rw [createDirectoryListing, hpage]
  exact (hrow.trans hrows).trans ⟨pre, post, rfl⟩

/-- **Where the links of a listing lead.** The page a listed directory is
answered with has the link; a GET of it is resolved to the entry, up to
repeated and trailing slashes, if and only if the link holds. -/
theorem link_leads_iff {documentRoot defaultFile : Bytes} {enableCache : Bool} {cacheSizeMb : Nat}
    {h : FileHandler} {fs : FileSystem} {raw dirPath filename version : Bytes} {isDirectory : Bool}
    {entries : List (Bytes × Bool)}
    (hc : Configured (.make documentRoot defaultFile enableCache cacheSizeMb) h)
    (hvalid : (HttpRequest.parse raw).valid = true)
    (hlisted : h.locate fs (HttpRequest.parse raw).path = .ok (.listing dirPath))
    (hentries : listedEntries fs dirPath = .ok entries) (hmem : (filename, isDirectory) ∈ entries)
    (hf : Visible filename) (hversion : version = bytes "HTTP/1.0" ∨ version = bytes "HTTP/1.1")
    (rest : Bytes) (texts : EntryTexts) (date : Bytes) :
    let link := entryLink (HttpRequest.parse raw).path filename isDirectory
    bytes "<a href=\"" ++ link ++ bytes "\">" <:+:
      (createDirectoryListing texts fs dirPath (HttpRequest.parse raw).path date).body ∧
    (SamePath (h.resolvePath (HttpRequest.parse
        (bytes "GET " ++ link ++ bytes " " ++ version ++ bytes "\r\n" ++ rest)).path)
      (dirPath ++ bytes "/" ++ filename) ↔
    LinkHolds h.defaultFile (HttpRequest.parse raw).path link filename) := by
  obtain ⟨hslash, hspace⟩ := HttpRequest.path_of_valid hvalid
  obtain ⟨hsafe, hdir⟩ := locate_eq_listing hlisted
  refine ⟨entryLink_listed texts _ date hentries hmem, ?_⟩
  generalize (HttpRequest.parse raw).path = requestPath at *
  obtain ⟨path, rfl⟩ : ∃ path, requestPath = 47 :: path := by
    cases requestPath with
    | nil => cases hslash
    | cons b path => exact ⟨path, congrArg (· :: path) (Option.some.inj hslash)⟩
  obtain ⟨root, hroot⟩ := hc.documentRoot (documentRoot_ne_nil hsafe)
  have hresolved : ∀ requestPath, h.resolvePath requestPath =
      root ++ 47 :: relativePath h.defaultFile requestPath := by
    intro requestPath
    rw [resolvePath_eq, hroot, List.append_assoc]
    rfl
  have hlinkSpace : ∀ b ∈ entryLink (47 :: path) filename isDirectory, isSpace b = true → b = 32 := by
    intro b hb hs
    rcases mem_entryLink hb with hb | hb | rfl
    · exact hspace b hb hs
    · exact hf.isSpace hb hs
    · cases hs
  have hlinkSlash : (entryLink (47 :: path) filename isDirectory).head? = some 47 := by
    obtain ⟨rest, hlink, -⟩ := entryLink_cons path filename isDirectory hf.ne_nil
    rw [hlink]
    rfl
  rw [HttpRequest.path_parse_get hlinkSlash hlinkSpace hversion rest, hdir, ← linkHolds_iff path hf,
    SamePath, hresolved, hresolved]
  have habsolute : ∀ x y, isAbsolute (root ++ 47 :: x) = isAbsolute (root ++ 47 :: y) := by
    intro x y
    cases root <;> rfl
  have hentry : root ++ 47 :: relativePath h.defaultFile (47 :: path) ++ bytes "/" ++ filename =
      root ++ 47 :: (relativePath h.defaultFile (47 :: path) ++ 47 :: filename) := by
    rw [show bytes "/" = [47] by decide]
    simp
  rw [hentry, and_iff_right (habsolute _ _), parts_append_slash, parts_append_slash,
    parts_append_slash, parts_name hf.ne_nil hf.no_slash, List.append_right_inj]

/-! ## A shelf -/

/-- The directory `public/docs` with the files `a+b.txt` and `c.txt`. -/
def shelf : FileSystem where
  root := .directory true
    [(bytes "srv", .directory true [(bytes "public", .directory true [(bytes "docs", .directory true
      [(bytes "a+b.txt", .regular [] true), (bytes "c.txt", .regular [] true)])])])]
  cwd := [bytes "srv"]
  linkMax := 40
  root_directory := rfl
  cwd_directory := by simp [Node.lookup, Node.isDirectory]
  cwd_plain := Serving.srv_plain

def librarian : FileHandler := .make (bytes "./public") (bytes "index.html") true 100

def getDocs : Bytes := bytes "GET /docs HTTP/1.1\r\n\r\n"

theorem locate_docs : (HttpRequest.parse getDocs).valid = true ∧
    (HttpRequest.parse getDocs).path = bytes "/docs" ∧
    librarian.locate shelf (bytes "/docs") = .ok (.listing (bytes "./public/docs")) ∧
    listedEntries shelf (bytes "./public/docs") =
      .ok [(bytes "a+b.txt", false), (bytes "c.txt", false)] := by
  decide

theorem link_leads_iff_docs :
    SamePath (librarian.resolvePath (HttpRequest.parse (bytes "GET " ++
        entryLink (HttpRequest.parse getDocs).path (bytes "c.txt") false ++ bytes " " ++
        bytes "HTTP/1.1" ++ bytes "\r\n" ++ bytes "\r\n")).path)
      (bytes "./public/docs" ++ bytes "/" ++ bytes "c.txt") := by
  obtain ⟨hvalid, hpath, hlisted, hentries⟩ := locate_docs
  have hvisible : Visible (bytes "c.txt") := ⟨by decide +kernel, by decide +kernel, by decide +kernel⟩
  have hmade : Configured (.make (bytes "./public") (bytes "index.html") true 100) librarian := rfl
  refine (link_leads_iff hmade hvalid (hpath ▸ hlisted) hentries (List.mem_cons_of_mem _ List.mem_cons_self)
    hvisible (.inr rfl) (bytes "\r\n") ⟨fun _ => [], fun _ => []⟩ []).2.mpr (.inl ?_)
  rw [hpath]
  refine ⟨by decide +kernel, ⟨by decide +kernel, ?_⟩, fun hroot => absurd hroot (by decide +kernel)⟩
  rintro ⟨pre, b, c, post, heq, -⟩
  have hpercent : (37 : UInt8) ∈ entryLink (bytes "/docs") (bytes "c.txt") false := by
    rw [heq]
    exact List.mem_append_right _ List.mem_cons_self
  revert hpercent
  decide

/-- The link `/docs/a+b.txt` is read as `/docs/a b.txt`. -/
theorem not_link_leads_docs :
    (HttpRequest.parse getDocs).valid = true ∧ Visible (bytes "a+b.txt") ∧
    librarian.locate shelf (HttpRequest.parse getDocs).path = .ok (.listing (bytes "./public/docs")) ∧
    listedEntries shelf (bytes "./public/docs") =
      .ok [(bytes "a+b.txt", false), (bytes "c.txt", false)] ∧
    ¬ SamePath (librarian.resolvePath (HttpRequest.parse (bytes "GET " ++
        entryLink (HttpRequest.parse getDocs).path (bytes "a+b.txt") false ++
        bytes " HTTP/1.1\r\n\r\n")).path)
      (bytes "./public/docs/a+b.txt") := by
  obtain ⟨hvalid, hpath, hlisted, hentries⟩ := locate_docs
  refine ⟨hvalid, ⟨by decide +kernel, by decide +kernel, by decide +kernel⟩, hpath ▸ hlisted, hentries,
    fun hsame => ?_⟩
  have hparts := hsame.2
  rw [hpath] at hparts
  revert hparts
  decide

end FileHandler

end Webserver
