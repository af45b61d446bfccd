import Mathlib
import PhpDoc.Proofs.Above
import PhpDoc.Proofs.ConvertedReaders
import PhpDoc.Source.ClassDecl

/-!
# Scanning a source with other line endings

Writing a carriage return before every line feed moves no line start relative to the text, so a scan
finds the same things.  Their offsets grow with the line feeds in front of them and keep their order.
What stands above a declaration, attribute lines and a doc comment, converts with it.
-/

namespace PhpDoc

variable {α : Type} {read : Text → Option (α × Text)}

/-! ## Scanning -/

/-- What is found at the same place of the converted source. -/
def Found.converted (f : Found α) (change : α → α) : Found α where
  start := (f.behind.withNewlines crlf.reverse).length
  behind := f.behind.withNewlines crlf.reverse
  ahead := f.ahead.withNewlines crlf
  rest := f.rest.withNewlines crlf
  value := change f.value

theorem startsLine_withNewlines (behind : Text) :
    startsLine (behind.withNewlines crlf.reverse) = startsLine behind := by
  cases behind with
  | nil => rfl
  | cons c behind =>
      by_cases hc : c = '\n'
      · rw [hc]
        rfl
      · rw [Text.withNewlines_cons hc]
        rfl

theorem scanFrom_append_skip (offset skip : Nat) (behind front text : Text) :
    scanFrom read offset behind (front.length + skip) (front ++ text) =
      scanFrom read (offset + front.length) (front.reverse ++ behind) skip text := by
  induction front generalizing offset behind with
  | nil => simp
  | cons c front ih =>
      have hskip : (c :: front).length + skip = front.length + skip + 1 := by
        rw [List.length_cons]
        omega
      rw [hskip, List.cons_append, scanFrom, ih, List.reverse_cons, List.append_assoc,
        List.length_cons, Nat.add_assoc, Nat.add_comm 1]
      rfl

/-- How a character is written in the converted text: as itself, or as the two characters of a line
ending. -/
def WrittenAs (c d : Char) (more : Text) : Prop :=
  c ≠ '\n' ∧ d = c ∧ more = [] ∨ c = '\n' ∧ d = '\r' ∧ more = ['\n']

theorem exists_writtenAs (c : Char) : ∃ d more, WrittenAs c d more := by
  by_cases hc : c = '\n'
  · exact ⟨'\r', ['\n'], Or.inr ⟨hc, rfl, rfl⟩⟩
  · exact ⟨c, [], Or.inl ⟨hc, rfl, rfl⟩⟩

namespace WrittenAs

variable {c d : Char} {more : Text} (h : WrittenAs c d more)
include h

theorem cons (text : Text) :
    Text.withNewlines (c :: text) crlf = d :: (more ++ Text.withNewlines text crlf) := by
  rcases h with ⟨hc, rfl, rfl⟩ | ⟨rfl, rfl, rfl⟩
  · exact Text.withNewlines_cons hc text crlf
  · rfl

theorem cons_behind (behind : Text) : Text.withNewlines (c :: behind) crlf.reverse =
    more.reverse ++ d :: Text.withNewlines behind crlf.reverse := by
  rcases h with ⟨hc, rfl, rfl⟩ | ⟨rfl, rfl, rfl⟩
  · exact Text.withNewlines_cons hc behind crlf.reverse
  · rfl

theorem length_take_succ (skip : Nat) (text : Text) :
    (Text.withNewlines ((c :: text).take (skip + 1)) crlf).length =
      more.length + (Text.withNewlines (text.take skip) crlf).length + 1 := by
  rw [List.take_succ_cons, h.cons, List.length_cons, List.length_append]

/-- No line starts between the two characters of a line ending. -/
theorem scanFrom_zero (offset : Nat) (behind text : Text) :
    scanFrom read offset (d :: behind) 0 (more ++ text) =
      scanFrom read offset (d :: behind) more.length (more ++ text) := by
  rcases h with ⟨-, -, rfl⟩ | ⟨-, rfl, rfl⟩ <;> rfl

end WrittenAs

/-- A scan of the converted text finds the converted things. -/
theorem scanFrom_withNewlines {change : α → α} (hread : Converts crlf change read)
    (hleaves : ∀ {text value rest}, read text = some (value, rest) →
      rest <:+ text ∧ rest.length < text.length) (offset skip : Nat) (behind text : Text) :
    scanFrom read (behind.withNewlines crlf.reverse).length (behind.withNewlines crlf.reverse)
        (Text.withNewlines (text.take skip) crlf).length (text.withNewlines crlf) =
      (scanFrom read offset behind skip text).map (·.converted change) := by
  induction text generalizing offset skip behind with
  | nil => rfl
  | cons c text ih =>
      obtain ⟨d, more, hwritten⟩ := exists_writtenAs c
      -- the characters that belong to what was read, from the second one on
      have hskipped : ∀ skip, scanFrom read ((behind.withNewlines crlf.reverse).length + 1)
          (d :: behind.withNewlines crlf.reverse)
          (more.length + (Text.withNewlines (text.take skip) crlf).length)
          (more ++ Text.withNewlines text crlf) =
            (scanFrom read (offset + 1) (c :: behind) skip text).map (·.converted change) := by
        intro skip
        have hoffset : (behind.withNewlines crlf.reverse).length + 1 + more.length =
            (Text.withNewlines (c :: behind) crlf.reverse).length := by
          rw [hwritten.cons_behind, List.length_append, List.length_reverse, List.length_cons]
          omega
        rw [scanFrom_append_skip, hoffset, ← hwritten.cons_behind]
        exact ih (offset + 1) skip (c :: behind)
      cases skip with
      | succ skip =>
          rw [hwritten.length_take_succ, hwritten.cons, scanFrom, hskipped, scanFrom]
      | zero =>
          have hfound : (if startsLine (behind.withNewlines crlf.reverse) then
              read (d :: (more ++ Text.withNewlines text crlf)) else none) =
                (if startsLine behind then read (c :: text) else none).map
                  (Prod.map change (Text.withNewlines · crlf)) := by
            rw [startsLine_withNewlines, ← hwritten.cons, hread]
            split <;> rfl
          have hzero : (Text.withNewlines ((c :: text).take 0) crlf).length = 0 := rfl
          rw [hzero, hwritten.cons, scanFrom, scanFrom, hfound]
          cases hfirst : if startsLine behind then read (c :: text) else none with
          | none => exact (hwritten.scanFrom_zero _ _ _).trans (hskipped 0)
          | some found =>
              obtain ⟨value, rest⟩ := found
              have hvalue : read (c :: text) = some (value, rest) := by
                split at hfirst
                · exact hfirst
                · contradiction
              obtain ⟨hsuffix, hlt⟩ := hleaves hvalue
              obtain ⟨front, rfl⟩ : rest <:+ text := by
                rcases List.suffix_cons_iff.1 hsuffix with rfl | hsuffix
                · exact absurd hlt (lt_irrefl _)
                · exact hsuffix
              have hlength : (c :: (front ++ rest)).length - rest.length - 1 = front.length := by
                rw [List.length_cons, List.length_append]
                omega
              have hlength' : (d :: (more ++ Text.withNewlines (front ++ rest) crlf)).length -
                  (Text.withNewlines rest crlf).length - 1 = more.length +
                    (Text.withNewlines ((front ++ rest).take front.length) crlf).length := by
                rw [List.take_left, Text.withNewlines_append, List.length_cons, List.length_append,
                  List.length_append]
                omega
              simp only [Option.map_some, Prod.map_apply, List.map_cons, Found.length,
                Found.converted, hwritten.cons, hlength, hlength', hskipped]

theorem scan_withNewlines {change : α → α} (hread : Converts crlf change read)
    (hleaves : ∀ {text value rest}, read text = some (value, rest) →
      rest <:+ text ∧ rest.length < text.length) (source : Text) :
    scan read (source.withNewlines crlf) = (scan read source).map (·.converted change) :=
  scanFrom_withNewlines hread hleaves 0 0 [] source

theorem scanFirst?_withNewlines {change : α → α} (hread : Converts crlf change read)
    (hleaves : ∀ {text value rest}, read text = some (value, rest) →
      rest <:+ text ∧ rest.length < text.length) (source : Text) :
    scanFirst? read (source.withNewlines crlf) =
      (scanFirst? read source).map (·.converted change) := by
  rw [scanFirst?, scanFirst?, scan_withNewlines hread hleaves, List.head?_map]

theorem Found.text_converted {f : Found α} (h : f.rest <:+ f.ahead) (change : α → α) :
    (f.converted change).text = f.text.withNewlines crlf := by
  obtain ⟨front, hfront⟩ := h
  have hahead : (f.converted change).ahead =
      Text.withNewlines front crlf ++ (f.converted change).rest := by
    rw [converted, ← hfront, Text.withNewlines_append]
  rw [Found.text_eq hahead, Found.text_eq hfront.symm]

/-! ## Offsets -/

/-- Where the place at an offset of the source stands in the converted source. -/
def convertedOffset (source : Text) (offset : Nat) : Nat :=
  (Text.withNewlines (source.take offset) crlf).length

theorem convertedOffset_length (front rest : Text) :
    convertedOffset (front ++ rest) front.length = (front.withNewlines crlf).length := by
  rw [convertedOffset, List.take_left]

theorem convertedOffset_sub (front middle rest : Text) :
    convertedOffset (front ++ middle ++ rest) (front ++ middle).length -
        (middle.withNewlines crlf).length =
      convertedOffset (front ++ middle ++ rest) ((front ++ middle).length - middle.length) := by
  rw [convertedOffset_length, Text.withNewlines_append, List.length_append, List.length_append,
    Nat.add_sub_cancel, Nat.add_sub_cancel, List.append_assoc, convertedOffset_length]

theorem Found.StandsIn.start_converted {f : Found α} {source : Text} (h : f.StandsIn read source)
    (change : α → α) : (f.converted change).start = convertedOffset source f.start := by
  have hlength : f.start = f.behind.reverse.length := by rw [h.start_eq, List.length_reverse]
  rw [hlength, h.source_eq, convertedOffset_length, converted, ← List.length_reverse,
    Text.reverse_withNewlines, List.reverse_reverse]

/-- Converting keeps the order of places. -/
theorem convertedOffset_lt_iff {source : Text} {m n : Nat} (hm : m ≤ source.length)
    (hn : n ≤ source.length) : convertedOffset source m < convertedOffset source n ↔ m < n := by
  have hgrows : ∀ {m n : Nat}, m ≤ n → n ≤ source.length →
      convertedOffset source m + (n - m) ≤ convertedOffset source n := by
    intro m n hmn hn
    have hsplit : source.take n = source.take m ++ (source.drop m).take (n - m) := by
      rw [← List.take_add, Nat.add_sub_cancel' hmn]
    have hle := Text.length_le_withNewlines isLineEnding_crlf ((source.drop m).take (n - m))
    rw [List.length_take, List.length_drop] at hle
    rw [convertedOffset, convertedOffset, hsplit, Text.withNewlines_append, List.length_append]
    omega
  rcases Nat.lt_or_ge m n with hlt | hge
  · have := hgrows (Nat.le_of_lt hlt) hn
    omega
  · have := hgrows hge hm
    omega

theorem Found.StandsIn.start_le {f : Found α} {source : Text} (h : f.StandsIn read source) :
    f.start ≤ source.length := by
  rw [h.source_eq, h.start_eq, List.length_append, List.length_reverse]
  omega

/-- A place of the converted source belongs to the same type. -/
theorem scopeAt_converted {source : Text} {offset : Nat} (hoffset : offset ≤ source.length) :
    scopeAt (scan readTypeHead? (source.withNewlines crlf)) (convertedOffset source offset) =
      scopeAt (scan readTypeHead? source) offset := by
  have hsame : ∀ f ∈ scan readTypeHead? source,
      decide ((f.converted id).start < convertedOffset source offset) =
        decide (f.start < offset) := by
    intro f hf
    have hstands := standsIn_of_mem_scan hf
    rw [hstands.start_converted, decide_eq_decide]
    exact convertedOffset_lt_iff hstands.start_le hoffset
  rw [scopeAt, scopeAt, scan_withNewlines (converts_readTypeHead? isLineEnding_crlf)
    isLineReader_readTypeHead?.leaves, List.takeWhile_map, ← takeWhile_congr hsame,
    List.getLast?_map, Option.map_map]
  rfl

theorem readProperties_withNewlines (source className : Text) :
    readProperties (source.withNewlines crlf) (scan readTypeHead? (source.withNewlines crlf))
        className = readProperties source (scan readTypeHead? source) className := by
  rw [readProperties, readProperties, scan_withNewlines (converts_readProperty? isLineEnding_crlf)
    isLineReader_readProperty?.leaves, List.filterMap_map]
  refine List.filterMap_congr fun found hfound => ?_
  have hstands := standsIn_of_mem_scan hfound
  simp only [Function.comp_apply, hstands.start_converted, scopeAt_converted hstands.start_le]
  rfl

/-! ## What stands above a declaration -/

theorem isAttributeLine_withNewlines (line : Text) :
    isAttributeLine (line.withNewlines crlf) = isAttributeLine line := by
  rw [isAttributeLine, isAttributeLine, Text.trim_withNewlines isLineEnding_crlf,
    Text.isPrefixOf_withNewlines isLineEnding_crlf (by decide),
    Text.endsWith_withNewlines isLineEnding_crlf (by decide)]

/-- Backwards, a line of the converted text is read up to the line feed that ends the line before. -/
theorem takeWhile_newline_withNewlines (behind : Text) :
    (behind.withNewlines crlf.reverse).takeWhile (· != '\n') = behind.takeWhile (· != '\n') ∧
      (behind.withNewlines crlf.reverse).dropWhile (· != '\n') =
        Text.withNewlines (behind.dropWhile (· != '\n')) crlf.reverse := by
  induction behind with
  | nil => exact ⟨rfl, rfl⟩
  | cons c behind ih =>
      by_cases hc : c = '\n'
      · rw [hc]
        exact ⟨rfl, rfl⟩
      · simpa [Text.withNewlines_cons hc, hc] using ih

theorem takeAttributes_withNewlines {fuel fuel' behind attributes : Text}
    (hline : startsLine behind = true) (hfuel : behind.length ≤ fuel.length)
    (hfuel' : (behind.withNewlines crlf.reverse).length ≤ fuel'.length) :
    takeAttributes fuel' (behind.withNewlines crlf.reverse) (attributes.withNewlines crlf) =
      (takeAttributes fuel behind attributes).map (Text.withNewlines · crlf.reverse)
        (Text.withNewlines · crlf) := by
  induction fuel generalizing fuel' behind attributes with
  | nil =>
      obtain rfl : behind = [] := List.length_eq_zero_iff.1 (Nat.le_zero.1 hfuel)
      cases fuel' <;> rfl
  | cons _ fuel ih =>
      cases behind with
      | nil => cases fuel' <;> rfl
      | cons c behind =>
          obtain rfl : c = '\n' := startsLine_iff.1 hline c rfl
          cases fuel' with
          | nil => exact absurd hfuel' (by simp [crlf, Text.withNewlines_cons_newline])
          | cons _ fuel' =>
              -- backwards, the line begins with its line ending and goes on to the next line feed
              obtain ⟨htake, hdrop⟩ := takeWhile_newline_withNewlines behind
              have hbehind : Text.withNewlines ('\n' :: behind) crlf.reverse =
                  '\n' :: '\r' :: Text.withNewlines behind crlf.reverse := rfl
              have htake' : ('\r' :: Text.withNewlines behind crlf.reverse).takeWhile (· != '\n') =
                  '\r' :: behind.takeWhile (· != '\n') := by
                rw [List.takeWhile_cons_of_pos (by rfl), htake]
              have hdrop' : ('\r' :: Text.withNewlines behind crlf.reverse).dropWhile (· != '\n') =
                  Text.withNewlines (behind.dropWhile (· != '\n')) crlf.reverse := by
                rw [List.dropWhile_cons_of_pos (by rfl), hdrop]
              have hconverted : ('\n' :: '\r' :: behind.takeWhile (· != '\n')).reverse =
                  Text.withNewlines ('\n' :: behind.takeWhile (· != '\n')).reverse crlf := by
                rw [← List.reverse_reverse crlf, ← Text.reverse_withNewlines,
                  Text.withNewlines_cons_newline,
                  Text.withNewlines_eq_self (newline_not_mem_takeWhile behind)]
                rfl
              have hshorter : (behind.dropWhile (· != '\n')).length ≤ behind.length :=
                (List.dropWhile_suffix _).length_le
              have hshorter' : (Text.withNewlines (behind.dropWhile (· != '\n'))
                  crlf.reverse).length ≤ (Text.withNewlines behind crlf.reverse).length := by
                rw [← hdrop]
                exact (List.dropWhile_suffix _).length_le
              rw [hbehind] at hfuel'
              simp only [List.length_cons] at hfuel hfuel'
              rw [hbehind, takeAttributes, takeAttributes]
              simp only [htake', hdrop', hconverted, isAttributeLine_withNewlines]
              split
              · rw [← Text.withNewlines_append]
                exact ih (startsLine_dropWhile behind) (by omega) (by omega)
              · rfl

theorem splitAttributes_withNewlines {behind : Text} (hline : startsLine behind = true) :
    splitAttributes (behind.withNewlines crlf.reverse) =
      (splitAttributes behind).map (Text.withNewlines · crlf.reverse) (Text.withNewlines · crlf) :=
  @takeAttributes_withNewlines behind _ behind [] hline le_rfl le_rfl

/-- The attribute lines of the converted source start where those of the source do. -/
theorem Found.StandsIn.sub_attributes {f : Found α} {source : Text} (h : f.StandsIn read source)
    (change : α → α) :
    (f.converted change).start - (Text.withNewlines (splitAttributes f.behind).2 crlf).length =
      convertedOffset source (f.start - (splitAttributes f.behind).2.length) := by
  have hbehind := (splitAttributes_spec h.startsLine (Prod.mk.eta).symm).1
  have hstart : f.start =
      ((splitAttributes f.behind).1.reverse ++ (splitAttributes f.behind).2).length := by
    rw [← hbehind, List.length_reverse, h.start_eq]
  rw [h.start_converted, hstart, h.source_eq, hbehind, convertedOffset_sub]

/-- The comment of the converted text. -/
def PrecedingDoc.converted (d : PrecedingDoc) : PrecedingDoc :=
  ⟨d.comment.withNewlines crlf, d.gap.withNewlines crlf⟩

/-- A comment that is too short to open and close stays so: it has no line feeds. -/
theorem length_withNewlines_lt_five_iff {inner tail : Text}
    (h : inner ++ openingLine.reverse = commentEnd.reverse ++ tail) :
    (Text.withNewlines (inner ++ openingLine.reverse) crlf.reverse).length < 5 ↔
      (inner ++ openingLine.reverse).length < 5 := by
  refine ⟨fun hlt => lt_of_le_of_lt
    (Text.length_le_withNewlines isLineEnding_crlf.reverse _) hlt, fun hlt => ?_⟩
  have htwo : commentEnd.reverse.length = 2 := rfl
  have hsuffix : tail <:+ openingLine.reverse := by
    refine List.suffix_of_suffix_length_le ⟨commentEnd.reverse, h.symm⟩ (List.suffix_append _ _) ?_
    rw [h, List.length_append] at hlt
    have hthree : openingLine.reverse.length = 3 := rfl
    omega
  have hnewline : '\n' ∉ commentEnd.reverse ++ tail := by
    rw [List.mem_append]
    exact not_or.2 ⟨by decide, fun hmem => absurd (hsuffix.subset hmem) (by decide)⟩
  rwa [Text.withNewlines_eq_self (h ▸ hnewline)]

theorem precedingDoc?_withNewlines (behind : Text) :
    precedingDoc? (behind.withNewlines crlf.reverse) =
      (precedingDoc? behind).map PrecedingDoc.converted := by
  have hn := isLineEnding_crlf.reverse
  have hblank : isBlank '\r' = isBlank '\n' := rfl
  simp only [precedingDoc?, Text.dropWhile_withNewlines hn hblank,
    Text.takeWhile_withNewlines hn hblank]
  rw [Text.after?_withNewlines hn (by decide)]
  cases hbody : Text.after? commentEnd.reverse (behind.dropWhile isBlank) with
  | none => rfl
  | some body =>
      rw [Text.cut?_withNewlines hn (by decide) (by decide)]
      cases hcut : Text.cut? openingLine.reverse (behind.dropWhile isBlank) with
      | none => rfl
      | some found =>
          obtain ⟨inner, front⟩ := found
          have hcomment := comment_eq_append_take ((Text.after?_eq_some_iff _ _ _).1 hbody) hcut
          have hopening : Text.withNewlines inner crlf.reverse ++ openingLine.reverse =
              Text.withNewlines (inner ++ openingLine.reverse) crlf.reverse := by
            rw [Text.withNewlines_append, @Text.withNewlines_eq_self openingLine.reverse (by decide)]
          -- the delimiters have no line feeds, so both comments are cut at the same place
          have hinner : (Text.withNewlines body crlf.reverse).take
              ((Text.withNewlines (inner ++ openingLine.reverse) crlf.reverse).length - 2) =
                Text.withNewlines (body.take ((inner ++ openingLine.reverse).length - 2))
                  crlf.reverse := by
            have htwo : commentEnd.reverse.length = 2 := rfl
            have hlength := congrArg (fun text => (Text.withNewlines text crlf.reverse).length)
              hcomment
            rw [Text.withNewlines_append commentEnd.reverse,
              @Text.withNewlines_eq_self commentEnd.reverse (by decide), List.length_append,
              htwo] at hlength
            have hparts : Text.withNewlines body crlf.reverse =
                Text.withNewlines (body.take ((inner ++ openingLine.reverse).length - 2))
                  crlf.reverse ++
                Text.withNewlines (body.drop ((inner ++ openingLine.reverse).length - 2))
                  crlf.reverse := by
              rw [← Text.withNewlines_append, List.take_append_drop]
            rw [hlength, Nat.add_sub_cancel_left, hparts, List.take_left]
          simp only [Option.map_some, Option.bind_eq_bind, Option.bind_some, Prod.map_apply,
            hopening, hinner, length_withNewlines_lt_five_iff hcomment,
            @Text.occursIn_withNewlines _ hn commentEnd.reverse (by decide) (by decide),
            Text.reverse_withNewlines, List.reverse_reverse]
          split <;> rfl

end PhpDoc
