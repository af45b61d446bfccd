import Mathlib
import PhpDoc.Source.Anchor
import PhpDoc.Proofs.Scanning

/-!
# What stands above a declaration

The attribute lines above a declaration are whole lines, and what is left above them again ends a
line.  The doc comment above those opens once, closes once, and only blanks follow it.  Conversely,
attribute lines and a doc comment that stand so are what is read.
-/

namespace PhpDoc

/-! ## Attribute lines -/

/-- Whole lines of attributes, one after the other. -/
inductive AttributeLines : Text → Prop
  | nil : AttributeLines []
  | cons {line rest : Text} : '\n' ∉ line → isAttributeLine (line ++ ['\n']) = true →
      AttributeLines rest → AttributeLines (line ++ '\n' :: rest)

theorem startsLine_iff {behind : Text} :
    startsLine behind = true ↔ ∀ c ∈ behind.head?, c = '\n' := by
  cases behind <;> simp [startsLine]

theorem startsLine_dropWhile (behind : Text) :
    startsLine (behind.dropWhile (· != '\n')) = true := by
  rw [startsLine_iff]
  intro c hc
  have hnot := List.head?_dropWhile_not (· != '\n') behind
  rw [Option.mem_def] at hc
  simpa [hc] using hnot

theorem newline_not_mem_takeWhile (text : Text) : '\n' ∉ text.takeWhile (· != '\n') := by
  intro hmem
  have hne := List.mem_takeWhile_imp hmem
  simp at hne

theorem takeAttributes_spec {fuel behind attributes front taken : Text}
    (hline : startsLine behind = true) (hattributes : AttributeLines attributes)
    (h : takeAttributes fuel behind attributes = (front, taken)) :
    behind.reverse ++ attributes = front.reverse ++ taken ∧ startsLine front = true ∧
      AttributeLines taken := by
  induction fuel generalizing behind attributes with
  | nil =>
      simp only [takeAttributes, Prod.mk.injEq] at h
      obtain ⟨rfl, rfl⟩ := h
      exact ⟨rfl, hline, hattributes⟩
  | cons _ fuel ih =>
      cases behind with
      | nil =>
          simp only [takeAttributes, Prod.mk.injEq] at h
          obtain ⟨rfl, rfl⟩ := h
          exact ⟨rfl, hline, hattributes⟩
      | cons c behind =>
          obtain rfl : c = '\n' := startsLine_iff.1 hline c rfl
          simp only [takeAttributes, List.reverse_cons] at h
          split at h
          · next hattribute =>
              have hmore := AttributeLines.cons
                (by simpa using newline_not_mem_takeWhile behind) hattribute hattributes
              obtain ⟨heq, hfront, htaken⟩ := ih (startsLine_dropWhile behind)
                (by simpa using hmore) h
              refine ⟨?_, hfront, htaken⟩
              have hsplit : behind.reverse = (behind.dropWhile (· != '\n')).reverse ++
                  (behind.takeWhile (· != '\n')).reverse := by
                rw [← List.reverse_append, List.takeWhile_append_dropWhile]
              rw [← heq, List.reverse_cons, hsplit]
              simp
          · simp only [Prod.mk.injEq] at h
            obtain ⟨rfl, rfl⟩ := h
            exact ⟨rfl, hline, hattributes⟩

theorem splitAttributes_spec {behind front attributes : Text} (hline : startsLine behind = true)
    (h : splitAttributes behind = (front, attributes)) :
    behind.reverse = front.reverse ++ attributes ∧ startsLine front = true ∧
      AttributeLines attributes := by
  simpa using takeAttributes_spec hline .nil h

theorem AttributeLines.exists_concat {attributes : Text} (h : AttributeLines attributes)
    (hne : attributes ≠ []) : ∃ more line, attributes = more ++ (line ++ ['\n']) ∧
      AttributeLines more ∧ '\n' ∉ line ∧ isAttributeLine (line ++ ['\n']) = true := by
  induction h with
  | nil => contradiction
  | @cons line rest hline hattribute hrest ih =>
      by_cases hnil : rest = []
      · exact ⟨[], line, by simp [hnil], .nil, hline, hattribute⟩
      · obtain ⟨more, last, rfl, hmore, hlast, hlast'⟩ := ih hnil
        exact ⟨line ++ '\n' :: more, last, by simp, .cons hline hattribute hmore, hlast, hlast'⟩

theorem AttributeLines.startsLine_reverse {front attributes : Text}
    (h : AttributeLines attributes) (hfront : startsLine front.reverse = true) :
    startsLine (front ++ attributes).reverse = true := by
  by_cases hne : attributes = []
  · rwa [hne, List.append_nil]
  · obtain ⟨more, line, rfl, -, -, -⟩ := h.exists_concat hne
    simp [startsLine]

/-- No attributes stand on the last line of the text. -/
def EndsPlain (front : Text) : Prop :=
  ∀ before line, front = before ++ (line ++ ['\n']) → '\n' ∉ line →
    startsLine before.reverse = true → isAttributeLine (line ++ ['\n']) = false

/-- No attribute line is left above those that were taken. -/
theorem endsPlain_of_takeAttributes {fuel behind attributes front taken : Text}
    (hfuel : behind.length ≤ fuel.length)
    (h : takeAttributes fuel behind attributes = (front, taken)) : EndsPlain front.reverse := by
  have hnil : EndsPlain [] := fun before line heq => by simp at heq
  induction fuel generalizing behind attributes with
  | nil =>
      obtain rfl : behind = [] := List.eq_nil_of_length_eq_zero (Nat.le_zero.1 hfuel)
      simp only [takeAttributes, Prod.mk.injEq] at h
      rw [← h.1]
      exact hnil
  | cons _ fuel ih =>
      cases behind with
      | nil =>
          simp only [takeAttributes, Prod.mk.injEq] at h
          rw [← h.1]
          exact hnil
      | cons c behind =>
          simp only [takeAttributes] at h
          split at h
          · have hshorter := (List.dropWhile_suffix (· != '\n') (l := behind)).length_le
            refine ih ?_ h
            simp only [List.length_cons] at hfuel
            omega
          · next hplain =>
              simp only [Prod.mk.injEq] at h
              rw [← h.1]
              intro before line heq hline hbefore
              -- the last line of the text is the one that was looked at
              rw [List.reverse_cons, ← List.append_assoc] at heq
              obtain ⟨hbehind, hlast⟩ := List.append_inj' heq rfl
              have hstop : ∀ d ∈ before.reverse.head?, (d != '\n') = false := by
                intro d hd
                simpa using startsLine_iff.1 hbefore d hd
              have hrun : behind.takeWhile (· != '\n') = line.reverse := by
                rw [← List.reverse_reverse behind, hbehind, List.reverse_append]
                refine Text.takeWhile_append_stop (fun d hd => ?_) hstop
                simpa using fun hd' : d = '\n' => hline (hd' ▸ List.mem_reverse.1 hd)
              rw [hrun, List.reverse_cons, List.reverse_reverse, hlast] at hplain
              exact Bool.eq_false_iff.2 hplain

/-- Read upwards, the last line of a text ends where the text before it ends a line. -/
theorem takeWhile_reverse_append {before line : Text} (hline : '\n' ∉ line)
    (hbefore : startsLine before.reverse = true) :
    (line.reverse ++ before.reverse).takeWhile (· != '\n') = line.reverse ∧
      (line.reverse ++ before.reverse).dropWhile (· != '\n') = before.reverse := by
  have hrun : ∀ c ∈ line.reverse, (c != '\n') = true := fun c hc => by
    rw [bne_iff_ne]
    rintro rfl
    exact hline (List.mem_reverse.1 hc)
  have hstop : ∀ c ∈ before.reverse.head?, (c != '\n') = false := fun c hc => by
    rw [startsLine_iff.1 hbefore c hc]
    rfl
  exact ⟨Text.takeWhile_append_stop hrun hstop, Text.dropWhile_append_stop hrun hstop⟩

/-- Nothing is taken from a text that does not end in an attribute line. -/
theorem takeAttributes_of_endsPlain {front : Text} (hfront : startsLine front.reverse = true)
    (hplain : EndsPlain front) (fuel taken : Text) :
    takeAttributes fuel front.reverse taken = (front.reverse, taken) := by
  cases fuel with
  | nil => rfl
  | cons _ fuel =>
      cases hbehind : front.reverse with
      | nil => rfl
      | cons c behind =>
          rw [hbehind] at hfront
          obtain rfl : c = '\n' := startsLine_iff.1 hfront c rfl
          have hnot : isAttributeLine ('\n' :: behind.takeWhile (· != '\n')).reverse = false := by
            rw [List.reverse_cons]
            refine hplain (behind.dropWhile (· != '\n')).reverse _ ?_
              (by simpa using newline_not_mem_takeWhile behind)
              (by simpa using startsLine_dropWhile behind)
            rw [← List.append_assoc, ← List.reverse_append, List.takeWhile_append_dropWhile,
              ← List.reverse_cons, ← hbehind, List.reverse_reverse]
          simp only [takeAttributes, hnot, Bool.false_eq_true, if_false]

theorem takeAttributes_append {front attributes : Text} (hattributes : AttributeLines attributes)
    (hfront : startsLine front.reverse = true) (hplain : EndsPlain front) (fuel taken : Text)
    (hfuel : attributes.length ≤ fuel.length) :
    takeAttributes fuel (front ++ attributes).reverse taken =
      (front.reverse, attributes ++ taken) := by
  induction fuel generalizing attributes taken with
  | nil =>
      obtain rfl : attributes = [] := List.eq_nil_of_length_eq_zero (by simpa using hfuel)
      simp [takeAttributes]
  | cons _ fuel ih =>
      by_cases hne : attributes = []
      · rw [hne, List.append_nil, List.nil_append]
        exact takeAttributes_of_endsPlain hfront hplain _ _
      · obtain ⟨more, line, rfl, hmore, hline, hattribute⟩ := hattributes.exists_concat hne
        obtain ⟨htake, hdrop⟩ := takeWhile_reverse_append hline (hmore.startsLine_reverse hfront)
        have hreverse : (front ++ (more ++ (line ++ ['\n']))).reverse =
            '\n' :: (line.reverse ++ (front ++ more).reverse) := by simp
        have htext : ('\n' :: line.reverse).reverse = line ++ ['\n'] := by simp
        simp only [List.length_append, List.length_cons] at hfuel
        rw [hreverse, takeAttributes, htake, hdrop, htext]
        simp only [hattribute, if_true]
        rw [ih hmore _ (by omega)]
        simp

/-- Attribute lines are split off from a text that does not end in one. -/
theorem splitAttributes_append {front attributes : Text} (hattributes : AttributeLines attributes)
    (hfront : startsLine front.reverse = true) (hplain : EndsPlain front) :
    splitAttributes (front ++ attributes).reverse = (front.reverse, attributes) := by
  rw [splitAttributes, takeAttributes_append hattributes hfront hplain _ _ (by simp),
    List.append_nil]

/-! ## Doc comments -/

/-- A doc comment: it opens at its start, closes at its end, and neither delimiter stands anywhere
else in it. -/
structure IsDocComment (comment : Text) : Prop where
  opens : openingLine <+: comment
  closes : commentEnd <:+ comment
  length_le : 5 ≤ comment.length
  opens_once : ∀ front rest, comment = front ++ openingLine ++ rest → front = []
  closes_once : ∀ front rest, comment = front ++ commentEnd ++ rest → rest = []

theorem not_mem_openingLine_of_blank {c : Char} (h : isBlank c = true) : c ∉ openingLine := by
  intro hmem
  have hnone : openingLine.all (fun c => !isBlank c) = true := by decide
  simpa [h] using List.all_eq_true.1 hnone c hmem

theorem IsDocComment.ne_nil {doc : Text} (h : IsDocComment doc) : doc ≠ [] := by
  rintro rfl
  simpa using h.length_le

theorem IsDocComment.getLast?_eq {comment : Text} (h : IsDocComment comment) :
    comment.getLast? = some '/' := by
  obtain ⟨body, rfl⟩ := h.closes
  rw [List.getLast?_append_of_ne_nil _ (by decide)]
  rfl

theorem IsDocComment.trim_eq {doc : Text} (h : IsDocComment doc) : doc.trim = doc := by
  obtain ⟨rest, rfl⟩ := h.opens
  have hstart : Text.trimStart (openingLine ++ rest) = openingLine ++ rest :=
    Text.trimStart_cons_of_not_blank (by decide) _
  obtain ⟨front, hfront⟩ := h.closes
  rw [Text.trim, hstart]
  refine Text.trimEnd_eq_self fun c hc => ?_
  rw [← hfront, List.getLast?_append] at hc
  obtain rfl : '/' = c := by simpa [commentEnd] using hc
  decide

/-- The closing delimiter, read backwards, stands nowhere in the rest of the comment, so no second
one ends in the comment. -/
theorem closes_once_of_not_infix {body front rest : Text}
    (hbody : ¬ commentEnd.reverse <:+: body)
    (h : commentEnd.reverse ++ body = rest.reverse ++ commentEnd.reverse ++ front.reverse) :
    rest = [] := by
  rw [← List.reverse_eq_nil_iff]
  revert h
  rcases rest.reverse with _ | ⟨a, _ | ⟨b, more⟩⟩
  · exact fun _ => rfl
  · -- two delimiters that overlap in one character cannot be
    intro h
    simp [commentEnd] at h
  · intro h
    simp only [commentEnd, String.reduceToList, List.reverse_cons, List.reverse_nil,
      List.nil_append, List.cons_append, List.cons.injEq] at h
    obtain ⟨-, -, rfl⟩ := h
    exact absurd ⟨more, front.reverse, by simp [commentEnd]⟩ hbody

/-- Backwards, a comment is its closing delimiter and then the body up to the opening one. -/
theorem comment_eq_append_take {kept body inner front : Text}
    (hbody : kept = commentEnd.reverse ++ body)
    (hcut : Text.cut? openingLine.reverse kept = some (inner, front)) :
    inner ++ openingLine.reverse = commentEnd.reverse ++
      body.take ((inner ++ openingLine.reverse).length - 2) := by
  have htwo : commentEnd.reverse.length = 2 := rfl
  have hthree : openingLine.reverse.length = 3 := rfl
  have htake := congrArg (List.take (inner ++ openingLine.reverse).length)
    ((Text.eq_append_of_cut? hcut).symm.trans hbody)
  rw [List.take_left, List.take_append, htwo, List.take_of_length_le
    (by rw [List.length_append]; omega : commentEnd.reverse.length ≤ _)] at htake
  exact htake

/-- The comment between the last opening delimiter and the end of a text, all read backwards. -/
theorem isDocComment_of_cut {kept body inner front : Text}
    (hbody : kept = commentEnd.reverse ++ body)
    (hcut : Text.cut? openingLine.reverse kept = some (inner, front))
    (hlength : 5 ≤ (inner ++ openingLine.reverse).length)
    (hinner : ¬ commentEnd.reverse <:+:
      body.take ((inner ++ openingLine.reverse).length - 2)) :
    IsDocComment (inner ++ openingLine.reverse).reverse := by
  have hkept := Text.eq_append_of_cut? hcut
  have hcomment := comment_eq_append_take hbody hcut
  refine ⟨⟨inner.reverse, by simp⟩, ?_, by rwa [List.length_reverse], fun u v huv => ?_,
    fun u v huv => ?_⟩
  · rw [hcomment, List.reverse_append, List.reverse_reverse]
    exact List.suffix_append _ _
  · have hrev := congrArg List.reverse huv
    simp only [List.reverse_reverse, List.reverse_append] at hrev
    have hoccurs : kept = v.reverse ++ openingLine.reverse ++ (u.reverse ++ front) := by
      rw [hkept, hrev]
      simp
    have hle := Text.length_le_of_cut? hcut hoccurs
    have hlengths := congrArg List.length hrev
    simp only [List.length_append, List.length_reverse] at hle hlengths
    exact List.eq_nil_of_length_eq_zero (by omega)
  · have hrev := congrArg List.reverse huv
    rw [List.reverse_reverse, hcomment, List.reverse_append, List.reverse_append] at hrev
    exact closes_once_of_not_infix hinner (hrev.trans (List.append_assoc _ _ _).symm)

theorem precedingDoc?_spec {behind : Text} {d : PrecedingDoc} (h : precedingDoc? behind = some d) :
    ∃ front, behind.reverse = front ++ d.comment ++ d.gap ∧ (∀ c ∈ d.gap, isBlank c = true) ∧
      IsDocComment d.comment := by
  simp only [precedingDoc?, Option.bind_eq_bind, Option.bind_eq_some_iff, Prod.exists] at h
  obtain ⟨body, hbody, inner, front, hcut, h⟩ := h
  rw [Text.after?_eq_some_iff] at hbody
  have hkept := Text.eq_append_of_cut? hcut
  split at h
  · contradiction
  · next hcheck =>
      simp only [Bool.or_eq_true, decide_eq_true_eq, not_or, not_lt] at hcheck
      obtain ⟨hlength, hinner⟩ := hcheck
      rw [Text.occursIn_iff] at hinner
      obtain rfl := Option.some.inj h
      refine ⟨front.reverse, ?_, fun c hc => ?_, ?_⟩
      · rw [← List.reverse_append, ← List.reverse_append, ← hkept,
          List.takeWhile_append_dropWhile]
      · exact List.mem_takeWhile_imp (List.mem_reverse.1 hc)
      · exact isDocComment_of_cut hbody hcut hlength hinner

/-- Read backwards, the last opening delimiter is the one that the comment starts with. -/
theorem IsDocComment.cut?_reverse {comment more : Text} (h : IsDocComment comment)
    (hmore : openingLine ++ more = comment) (front : Text) :
    Text.cut? openingLine.reverse (front ++ comment).reverse =
      some (more.reverse, front.reverse) := by
  have hoccurs : (front ++ comment).reverse =
      more.reverse ++ openingLine.reverse ++ front.reverse := by
    rw [← hmore]
    simp
  cases hcut : Text.cut? openingLine.reverse (front ++ comment).reverse with
  | none =>
      rw [Text.cut?_eq_none_iff] at hcut
      exact absurd ⟨more.reverse, front.reverse, hoccurs.symm⟩ hcut
  | some found =>
      obtain ⟨inner, rest⟩ := found
      have hle := Text.length_le_of_cut? hcut hoccurs
      have heq := Text.eq_append_of_cut? hcut
      obtain ⟨earlier, hearlier⟩ : inner ++ openingLine.reverse <+: comment.reverse := by
        refine List.prefix_of_prefix_length_le ⟨rest, heq.symm⟩
          ⟨front.reverse, by rw [List.reverse_append]⟩ ?_
        rw [← hmore]
        simp only [List.length_append, List.length_reverse] at hle ⊢
        omega
      have honce := h.opens_once earlier.reverse inner.reverse (by
        rw [← List.reverse_reverse comment, ← hearlier]
        simp)
      rw [List.reverse_eq_nil_iff] at honce
      rw [honce, List.append_nil, ← hmore, List.reverse_append,
        List.append_cancel_right_eq] at hearlier
      rw [hoccurs, hearlier, List.append_cancel_left_eq] at heq
      rw [hearlier, heq]

/-- No closing delimiter stands before the one that ends the comment. -/
theorem IsDocComment.not_infix_body {comment body : Text} (h : IsDocComment comment)
    (hbody : body ++ commentEnd = comment) : ¬ commentEnd.reverse <:+: body.reverse := by
  rintro ⟨later, earlier, hinside⟩
  have honce := h.closes_once earlier.reverse (later.reverse ++ commentEnd) (by
    rw [← hbody, ← List.reverse_reverse body, ← hinside]
    simp)
  simp [commentEnd] at honce

/-- A doc comment is found above blanks. -/
theorem precedingDoc?_append {comment gap : Text} (hcomment : IsDocComment comment)
    (hgap : ∀ c ∈ gap, isBlank c = true) (front : Text) :
    precedingDoc? (front ++ comment ++ gap).reverse = some ⟨comment, gap⟩ := by
  obtain ⟨body, hbody⟩ := hcomment.closes
  obtain ⟨more, hmore⟩ := hcomment.opens
  have hblank : ∀ c ∈ gap.reverse, isBlank c = true := fun c hc => hgap c (List.mem_reverse.1 hc)
  have hafter : (front ++ comment).reverse =
      commentEnd.reverse ++ (body.reverse ++ front.reverse) := by
    rw [← hbody]
    simp
  have hmark : ∀ c ∈ (front ++ comment).reverse.head?, isBlank c = false := by
    intro c hc
    rw [hafter] at hc
    obtain rfl : '/' = c := Option.some.inj hc
    decide
  have hkept : (front ++ comment ++ gap).reverse.dropWhile isBlank = (front ++ comment).reverse := by
    rw [List.reverse_append, Text.dropWhile_append_stop hblank hmark]
  have hgap' : (front ++ comment ++ gap).reverse.takeWhile isBlank = gap.reverse := by
    rw [List.reverse_append, Text.takeWhile_append_stop hblank hmark]
  have hbody' := (Text.after?_eq_some_iff _ _ _).2 hafter
  have hcomment' : (more.reverse ++ openingLine.reverse).reverse = comment := by
    rw [← hmore]
    simp
  have hlength : (more.reverse ++ openingLine.reverse).length = comment.length := by
    rw [← hcomment', List.length_reverse]
  have hclosed : Text.occursIn commentEnd.reverse
      ((body.reverse ++ front.reverse).take (comment.length - 2)) = false := by
    have htake : (body.reverse ++ front.reverse).take (comment.length - 2) = body.reverse := by
      rw [← hbody, List.length_append]
      exact List.take_left' (by simp [commentEnd])
    rw [htake, ← Bool.not_eq_true, Text.occursIn_iff]
    exact hcomment.not_infix_body hbody
  have hlong : ¬ comment.length < 5 := Nat.not_lt.2 hcomment.length_le
  simp only [precedingDoc?, hkept, hgap', hbody', hcomment.cut?_reverse hmore,
    Option.bind_eq_bind, Option.bind_some, hlength, hclosed, hlong, decide_false, Bool.or_false,
    Bool.false_eq_true, if_false, hcomment', List.reverse_reverse]

end PhpDoc
