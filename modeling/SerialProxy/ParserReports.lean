import SerialProxy.ConfigText

/-!
# What the parser reports

ini.h promises that the handler is called for each pair, that the parser does not stop at an
error, and that it returns the number of the first line with one, or 0. A line is for the parser
what one read gives it, which is a line of the text exactly where the buffer holds it. Each line
has a reading that depends on the text alone; the handler answers for the readings with an entry,
one after another, and the answers decide what is returned. Blank lines and comments have a
reading without an entry, so that putting some of them into a text moves the reported numbers and
does nothing else. A comment that is longer than the buffer ends with the buffer: what is behind
it is read as a line of its own.
-/

namespace SerialProxy.ParserReports

open FaultPrograms CText SerialState SerialConfig IniParser ConfigText

/-- What a line of the text is for the caller of the parser. -/
inductive Reading
  /-- Nothing: a section, a comment or a blank line. -/
  | silent
  /-- An entry for the handler. -/
  | entry (e : ConfigEntry)
  /-- A line the parser rejects by itself. -/
  | malformed
  deriving DecidableEq

/-- The reading of a line at this place. -/
def reading (c : Cursor) (line : CString) : Reading :=
  match lineKind (c.lineno+1) c.prevName line with
  | .continued value => .entry ⟨c.sectionName,c.prevName,value⟩
  | .pair name value => .entry ⟨c.sectionName,name,value⟩
  | .malformed => .malformed
  | _ => .silent

/-- The readings of some lines, one for each. -/
def readingsFrom (c : Cursor) : List CString → List Reading
  | [] => []
  | line::lines => reading c line::readingsFrom (c.next line) lines

/-- The readings of the lines of a stream. -/
def readings (stream : CString) : List Reading := readingsFrom ⟨[],[],0⟩ (linesOf stream)

/-- What the handler, or the parser for it, answers for a line. -/
def answer (handler : ConfigEntry → Prog Bool) : Reading → Prog Bool
  | .silent => pure true
  | .entry e => handler e
  | .malformed => pure false

/-- The number of the first line that is not accepted, or 0. -/
def firstError (oks : List Bool) : ℕ :=
  match oks.findIdx? (!·) with
  | some i => i+1
  | none => 0

/-- The error behind some more lines: the one that is there, or the first of theirs. -/
def reported (error lineno : ℕ) (oks : List Bool) : ℕ :=
  if error≠0 then error
  else
    match oks.findIdx? (!·) with
    | some i => lineno+i+1
    | none => 0

/-- The number of a line behind lines that are put in. -/
def shifted (before inserted error : ℕ) : ℕ :=
  if error≤before then error else error+inserted

/-- A blank line or a comment. -/
def isComment (line : CString) : Bool := (lskip line).head?.all fun c => c= ';' || c= '#'

/-- The text ends where a read ends: with a newline, or with the buffer. -/
inductive Finished : CString → Prop
  /-- A text of whole lines. -/
  | newline (s : CString) : Finished (s++['\n'])
  /-- The front of a longer line. -/
  | full {s : CString} (hline : '\n'∉s) (hlength : s.length=iniMaxLine-1) : Finished s

section Lines

variable {l s : CString} {room : ℕ}

end Lines

section Reports

variable {handler : ConfigEntry → Prog Bool} {error lineno before inserted : ℕ} {ok : Bool}
variable {oks : List Bool} {stream : CString}

/-- The report at the start of a text. -/
theorem reported_start : reported 0 0=firstError := by
  funext oks
  rw [reported,if_neg (not_not.mpr rfl),firstError]
  simp only [Nat.zero_add]

/-- The report behind the last line. -/
theorem reported_nil (error lineno : ℕ) : reported error lineno []=error := by
  rw [reported]
  split
  · rfl
  · next he => exact (not_not.mp he).symm

/-- Only the first error is kept. -/
theorem reported_cons (error lineno : ℕ) (ok : Bool) (oks : List Bool) :
    reported error lineno (ok::oks)=
      reported (if ok=false ∧ error=0 then lineno+1 else error) (lineno+1) oks := by
  by_cases he : error=0
  · subst he
    cases ok with
    | false => simp [reported,List.findIdx?_cons]
    | true =>
      simp only [reported,List.findIdx?_cons,Bool.not_true,Bool.false_eq_true,if_false,ne_eq,
        not_true_eq_false,Bool.true_eq_false,false_and]
      cases oks.findIdx? (!·) with
      | none => rfl
      | some i => simp only [Option.map_some]; omega
  · rw [if_neg fun h => he h.2,reported,reported,if_pos he,if_pos he]

/-- One turn of the loop: the answer for the reading of its line is reported at this line. -/
theorem iniLine_reading (handler : ConfigEntry → Prog Bool) (st : IniState) (line : CString) :
    iniLine handler st line=answer handler (reading st.cursor line) >>= fun ok =>
      pure (IniState.report ⟨st.cursor.next line,st.error⟩ ok) := by
  unfold iniLine reading Cursor.next
  dsimp only
  cases lineKind (st.cursor.lineno+1) st.cursor.prevName line with
  | ignored => rfl
  | continued value => rfl
  | header name => rfl
  | pair name value => rfl
  | malformed => rfl

/-- Every line is counted. -/
theorem next_lineno (c : Cursor) (line : CString) : (c.next line).lineno=c.lineno+1 := by
  unfold Cursor.next
  dsimp only
  split <;> rfl

/-- The first error stays. -/
theorem report_error (st : IniState) (ok : Bool) :
    (st.report ok).error=if ok=false ∧ st.error=0 then st.cursor.lineno else st.error := by
  rw [IniState.report]
  split <;> rfl

/-- A report moves nothing. -/
theorem report_cursor (st : IniState) (ok : Bool) : (st.report ok).cursor=st.cursor := by
  rw [IniState.report]
  split <;> rfl

/-- The loop asks for each line once, in order, and reports the answers. -/
theorem iniLoop_reports (handler : ConfigEntry → Prog Bool) (bound : ℕ) (st : IniState)
    (h : stream.length≤bound) : (iniLoop handler bound st stream >>= fun st => pure st.error)=
      reported st.error st.cursor.lineno <$>
        (readingsFrom st.cursor (linesOf stream)).mapM (answer handler) := by
  induction bound generalizing st stream with
  | zero =>
    obtain rfl := List.length_eq_zero_iff.mp (Nat.le_zero.mp h)
    rw [linesOf_nil,readingsFrom,List.mapM_nil,map_pure,reported_nil]
    rfl
  | succ bound ih =>
    by_cases hs : stream=[]
    · subst hs
      rw [linesOf_nil,readingsFrom,List.mapM_nil,map_pure,reported_nil]
      rfl
    · have hlt := rest_lt hs
      rw [linesOf_cons hs,readingsFrom,iniLoop_cons handler bound st hs,iniLine_reading,
        List.mapM_cons,bind_assoc,bind_assoc,map_bind]
      refine bind_congr fun ok => ?_
      rw [pure_bind,ih _ (Nat.le_of_lt_succ (hlt.trans_le h)),report_error,report_cursor,
        next_lineno]
      simp only [map_eq_pure_bind,bind_assoc,pure_bind,reported_cons]

/-- The parser returns the first error among the answers to what it reads. -/
theorem iniParseFile_reports (stream : CString) (handler : ConfigEntry → Prog Bool) :
    iniParseFile stream handler=firstError <$> (readings stream).mapM (answer handler) := by
  have hloop := iniLoop_reports handler stream.length ⟨⟨[],[],0⟩,0⟩ (Nat.le_refl _)
  rw [iniParseFile,hloop]
  simp only [reported_start]
  rfl

/-- The rest of a value that is too long for the buffer is a line without a pair. -/
example : readings ("a=".toList++List.replicate 300 'x'++['\n']++"b=1".toList)=
    [.entry ⟨[],['a'],List.replicate 197 'x'⟩,.malformed,.entry ⟨[],['b'],['1']⟩] := by
  decide +kernel

end Reports

section Comments

variable {c c' : Cursor} {s t line before comment after : CString} {lines : List CString}
variable {error lineno inserted : ℕ} {x : Char}

/-- Behind the first line the byte order mark is no more skipped, so that numbers do not
matter. -/
theorem lineKind_congr {lineno lineno' : ℕ} (h : lineno≠1) (h' : lineno'≠1)
    (prevName line : CString) : lineKind lineno prevName line=lineKind lineno' prevName line := by
  simp only [lineKind,stripped,marked,decide_eq_false h,decide_eq_false h',Bool.false_and]

/-- The two places differ in nothing but their number, and neither is the first line. -/
structure Alike (c c' : Cursor) : Prop where
  /-- The section. -/
  sectionName : c.sectionName=c'.sectionName
  /-- The last name. -/
  prevName : c.prevName=c'.prevName
  /-- A line is read before the one. -/
  later : c.lineno≠0
  /-- A line is read before the other. -/
  later' : c'.lineno≠0

/-- Cursors that remember the same take a line for the same. -/
theorem Alike.kind (h : Alike c c') (line : CString) :
    lineKind (c.lineno+1) c.prevName line=lineKind (c'.lineno+1) c'.prevName line := by
  rw [h.prevName]
  exact lineKind_congr (fun hone => h.later (Nat.succ.inj hone))
    (fun hone => h.later' (Nat.succ.inj hone)) _ _

/-- They still do behind it. -/
theorem Alike.next (h : Alike c c') (line : CString) : Alike (c.next line) (c'.next line) := by
  have hkind := h.kind line
  refine ⟨?_,?_,?_,?_⟩
  · unfold Cursor.next
    dsimp only
    rw [hkind]
    split
    · rfl
    · exact h.sectionName
    · exact h.sectionName
  · unfold Cursor.next
    dsimp only
    rw [hkind]
    split
    · rfl
    · rfl
    · exact h.prevName
  · rw [next_lineno]
    exact Nat.succ_ne_zero _
  · rw [next_lineno]
    exact Nat.succ_ne_zero _

/-- They read it alike. -/
theorem Alike.reading (h : Alike c c') (line : CString) :
    reading c line=ParserReports.reading c' line := by
  rw [ParserReports.reading,ParserReports.reading,h.kind line,h.sectionName,h.prevName]

/-- They read all lines behind it alike. -/
theorem Alike.readings (h : Alike c c') (lines : List CString) :
    readingsFrom c lines=readingsFrom c' lines := by
  induction lines generalizing c c' with
  | nil => rfl
  | cons line lines ih => rw [readingsFrom,readingsFrom,h.reading line,ih (h.next line)]

/-- Two groups of lines are read one after another. -/
theorem readingsFrom_append (c : Cursor) (lines lines' : List CString) :
    readingsFrom c (lines++lines')=
      readingsFrom c lines++readingsFrom (c.behind lines) lines' := by
  induction lines generalizing c with
  | nil => rfl
  | cons line lines ih =>
    rw [List.cons_append,readingsFrom,readingsFrom,ih]
    rfl

/-- There is one reading for each line. -/
theorem readingsFrom_length (c : Cursor) (lines : List CString) :
    (readingsFrom c lines).length=lines.length := by
  induction lines generalizing c with
  | nil => rfl
  | cons line lines ih => rw [readingsFrom,List.length_cons,ih,List.length_cons]

/-- Behind some lines the parser has counted them. -/
theorem behind_lineno (c : Cursor) (lines : List CString) :
    (c.behind lines).lineno=c.lineno+lines.length := by
  induction lines generalizing c with
  | nil => rfl
  | cons line lines ih =>
    rw [Cursor.behind,List.foldl_cons]
    refine (ih (c.next line)).trans ?_
    rw [next_lineno,List.length_cons]
    omega

/-- A comment is ignored, also in the middle of a value that goes on behind it. -/
theorem lineKind_comment (h : isComment line=true) (hno : lineno≠1) (prevName : CString) :
    lineKind lineno prevName line=.ignored := by
  have hstart : startKind prevName (decide ((lskip (rstrip (line.takeWhile (·≠ '\x00')))).length<
      (rstrip (line.takeWhile (·≠ '\x00'))).length))
      (lskip (rstrip (line.takeWhile (·≠ '\x00'))))=.ignored := by
    have hsplit : line.takeWhile isspace++lskip line=line := List.takeWhile_append_dropWhile
    have hspaces : ∀ x∈line.takeWhile isspace,isspace x=true := fun x hx =>
      List.mem_takeWhile_imp hx
    cases hrest : lskip line with
    | nil =>
      rw [hrest,List.append_nil] at hsplit
      have hblank : rstrip (line.takeWhile (·≠ '\x00'))=[] := by
        refine List.rdropWhile_eq_nil_iff.mpr fun x hx => ?_
        exact hspaces x (hsplit.symm ▸ (List.takeWhile_prefix _).subset hx)
      rw [hblank]
      rfl
    | cons x rest =>
      have hx : x= ';' ∨ x= '#' := by
        rw [isComment,hrest] at h
        simpa using h
      have hplain : isspace x=false := by
        rcases hx with rfl|rfl <;> decide
      have hnul : ∀ y∈line.takeWhile isspace,decide (y≠ '\x00')=true := by
        intro y hy
        refine decide_eq_true fun he => ?_
        have hspace := hspaces y hy
        rw [he] at hspace
        exact absurd hspace (by decide)
      have htext : line.takeWhile (·≠ '\x00')=
          line.takeWhile isspace++x::rest.takeWhile (·≠ '\x00') := by
        conv_lhs => rw [← hsplit,hrest]
        rw [List.takeWhile_append_of_pos hnul,List.takeWhile_cons_of_pos]
        rcases hx with rfl|rfl <;> decide
      have hskip : lskip (rstrip (line.takeWhile (·≠ '\x00')))=
          x::rstrip (rest.takeWhile (·≠ '\x00')) := by
        rw [htext,rstrip_append_cons hplain,lskip,List.dropWhile_append_of_pos hspaces]
        exact lskip_cons hplain _
      rw [hskip,startKind]
      exact if_pos hx
  unfold lineKind stripped
  simp only [marked,decide_eq_false hno,Bool.false_and,Bool.false_eq_true,if_false,Bool.false_or]
  exact hstart

/-- A comment is read as nothing and leaves the parser as it was. -/
theorem next_comment (h : isComment line=true) (hlater : c.lineno≠0) :
    reading c line=.silent ∧ Alike c (c.next line) := by
  have hkind := lineKind_comment h (fun hone => hlater (Nat.succ.inj hone)) c.prevName
  constructor
  · rw [reading,hkind]
  · unfold Cursor.next
    dsimp only
    rw [hkind]
    exact ⟨rfl,rfl,hlater,Nat.succ_ne_zero _⟩

/-- Comments behind the first line have no reading, and move nothing but the line number. -/
theorem readingsFrom_comments (h : ∀ line∈lines,isComment line=true) (hlater : c.lineno≠0) :
    readingsFrom c lines=List.replicate lines.length .silent ∧ Alike c (c.behind lines) := by
  induction lines generalizing c with
  | nil => exact ⟨rfl,rfl,rfl,hlater,hlater⟩
  | cons line lines ih =>
    obtain ⟨hsilent,halike⟩ := next_comment (h line List.mem_cons_self) hlater
    obtain ⟨hreadings,hbehind⟩ := ih (fun l hl => h l (List.mem_cons_of_mem _ hl)) halike.later'
    constructor
    · rw [readingsFrom,hsilent,hreadings]
      rfl
    · exact ⟨halike.sectionName.trans hbehind.sectionName,halike.prevName.trans hbehind.prevName,
        hlater,hbehind.later'⟩

/-- A read of a text with a newline does not look behind it. -/
theorem takeLine_newline (room : ℕ) (s after : CString) :
    takeLine room (s++['\n']++after)=
        ((takeLine room (s++['\n'])).1,(takeLine room (s++['\n'])).2++after) ∧
      ((takeLine room (s++['\n'])).2=[] ∨ ∃ t,(takeLine room (s++['\n'])).2=t++['\n']) := by
  induction s generalizing room with
  | nil =>
    cases room with
    | zero => exact ⟨rfl,.inr ⟨[],rfl⟩⟩
    | succ room => exact ⟨rfl,.inl rfl⟩
  | cons x s ih =>
    cases room with
    | zero => exact ⟨rfl,.inr ⟨x::s,rfl⟩⟩
    | succ room =>
      by_cases hx : x= '\n'
      · subst hx
        exact ⟨rfl,.inr ⟨s,rfl⟩⟩
      · obtain ⟨hread,hrest⟩ := ih room
        simp only [List.cons_append,takeLine,if_neg hx]
        exact ⟨by rw [hread],hrest⟩

/-- The reads of a text of whole lines stay the same with a text behind it. -/
theorem linesOf_newline (s after : CString) :
    linesOf (s++['\n']++after)=linesOf (s++['\n'])++linesOf after := by
  generalize hn : (s++['\n']).length=n
  induction n using Nat.strong_induction_on generalizing s with
  | _ n ih =>
    obtain ⟨hread,hrest⟩ := takeLine_newline (iniMaxLine-1) s after
    have hne : s++['\n']≠[] := List.append_ne_nil_of_right_ne_nil _ (List.cons_ne_nil _ _)
    have hlt := rest_lt hne
    rw [linesOf_cons (List.append_ne_nil_of_left_ne_nil hne after),hread,linesOf_cons hne,
      List.cons_append]
    refine congrArg _ ?_
    rcases hrest with hnil|⟨t,ht⟩
    · rw [hnil,linesOf_nil]
      rfl
    · rw [ht] at hlt ⊢
      exact ih _ (hn ▸ hlt) t rfl

/-- A read that fills the buffer is one line. -/
theorem linesOf_full (hline : '\n'∉s) (hlength : s.length=iniMaxLine-1) (after : CString) :
    linesOf (s++after)=s::linesOf after := by
  rw [linesOf_of_long hline hlength.ge,List.drop_of_length_le (by rw [hlength]),
    List.take_of_length_le (by rw [hlength]),List.nil_append]

/-- The lines behind a finished front are those of the rest. -/
theorem linesOf_finished (h : Finished s) (after : CString) :
    linesOf (s++after)=linesOf s++linesOf after := by
  cases h with
  | newline s => exact linesOf_newline s after
  | full hline hlength =>
    have hself := linesOf_full hline hlength []
    rw [List.append_nil,linesOf_nil] at hself
    rw [linesOf_full hline hlength,hself]
    rfl

/-- A finished front has a line. -/
theorem Finished.lines_ne_nil (h : Finished s) : linesOf s≠[] := by
  have hne : s≠[] := by
    cases h with
    | newline s => exact List.append_ne_nil_of_right_ne_nil _ (List.cons_ne_nil _ _)
    | full hline hlength =>
      refine List.ne_nil_of_length_pos ?_
      rw [hlength]
      decide
  rw [linesOf_cons hne]
  exact List.cons_ne_nil _ _

/-- The readings of a text into which comments are put. -/
theorem readings_comments (hbefore : Finished before) (hcomment : Finished comment)
    (h : ∀ line∈linesOf comment,isComment line=true) (after : CString) : ∃ rest,
      readings (before++after)=readings before++rest ∧
      readings (before++(comment++after))=
        readings before++(List.replicate (linesOf comment).length .silent++rest) := by
  have hlater : (Cursor.behind ⟨[],[],0⟩ (linesOf before)).lineno≠0 := by
    rw [behind_lineno,Nat.zero_add]
    exact Nat.ne_of_gt (List.length_pos_of_ne_nil hbefore.lines_ne_nil)
  obtain ⟨hsilent,halike⟩ := readingsFrom_comments h hlater
  refine ⟨readingsFrom (Cursor.behind ⟨[],[],0⟩ (linesOf before)) (linesOf after),?_,?_⟩
  · rw [readings,linesOf_finished hbefore,readingsFrom_append]
    rfl
  · rw [readings,linesOf_finished hbefore,linesOf_finished hcomment,readingsFrom_append,
      readingsFrom_append,hsilent,← halike.readings]
    rfl

/-- Accepted lines that are put in move the first error behind them. -/
theorem reported_replicate (h : error≤lineno) (inserted : ℕ) (oks : List Bool) :
    reported error lineno (List.replicate inserted true++oks)=
      shifted lineno inserted (reported error lineno oks) := by
  by_cases he : error=0
  · subst he
    have hskip : (List.replicate inserted true++oks).findIdx? (!·)=
        (oks.findIdx? (!·)).map (·+inserted) := by
      rw [List.findIdx?_append,List.findIdx?_eq_none_iff.mpr (by simp),List.length_replicate]
      rfl
    simp only [reported,ne_eq,not_true_eq_false,if_false,hskip]
    cases oks.findIdx? (!·) with
    | none => exact (if_pos (Nat.zero_le _)).symm
    | some i =>
      simp only [Option.map_some,shifted]
      rw [if_neg (by omega)]
      omega
  · rw [reported,reported,if_pos he,if_pos he,shifted,if_pos h]

/-- The handler is not called for what is read as nothing. -/
theorem answers_replicate (handler : ConfigEntry → Prog Bool) (inserted : ℕ)
    (rest : List Reading) : (List.replicate inserted Reading.silent++rest).mapM (answer handler)=
      (List.replicate inserted true++·) <$> rest.mapM (answer handler) := by
  induction inserted with
  | zero => exact (id_map _).symm
  | succ inserted ih =>
    rw [List.replicate_succ,List.cons_append,List.mapM_cons,ih]
    simp only [answer,map_eq_pure_bind,bind_assoc,pure_bind,List.replicate_succ,List.cons_append]

/-- By induction on the readings in front: silent readings that are put in move the error, and
the handler does not see them. -/
theorem reported_inserted (handler : ConfigEntry → Prog Bool) (front rest : List Reading)
    (h : error≤lineno) (inserted : ℕ) :
    reported error lineno <$>
        (front++(List.replicate inserted Reading.silent++rest)).mapM (answer handler)=
      (fun oks => shifted (lineno+front.length) inserted (reported error lineno oks)) <$>
        (front++rest).mapM (answer handler) := by
  induction front generalizing error lineno with
  | nil =>
    rw [List.nil_append,List.nil_append,answers_replicate,Functor.map_map]
    simp only [reported_replicate h,List.length_nil,Nat.add_zero]
  | cons r front ih =>
    rw [List.cons_append,List.cons_append,List.mapM_cons,List.mapM_cons,map_bind,map_bind]
    refine bind_congr fun ok => ?_
    have hnext : (if ok=false ∧ error=0 then lineno+1 else error)≤lineno+1 := by
      split <;> omega
    have hrest := ih hnext
    rw [map_eq_pure_bind,map_eq_pure_bind] at hrest ⊢
    simp only [bind_assoc,pure_bind,reported_cons,List.length_cons] at hrest ⊢
    rw [hrest,Nat.add_right_comm,Nat.add_assoc]

/-- Blank lines and comments behind the first line change nothing but the number of the line
that is reported; what is behind a comment that fills the buffer is read as a new line. -/
theorem comments_transparent (handler : ConfigEntry → Prog Bool) (hbefore : Finished before)
    (hcomment : Finished comment) (h : ∀ line∈linesOf comment,isComment line=true)
    (after : CString) : iniParseFile (before++(comment++after)) handler=
      shifted (linesOf before).length (linesOf comment).length <$>
        iniParseFile (before++after) handler := by
  obtain ⟨rest,hplain,hinserted⟩ := readings_comments hbefore hcomment h after
  have hlength : (readings before).length=(linesOf before).length := readingsFrom_length _ _
  have hmoved := reported_inserted handler (readings before) rest (Nat.le_refl 0)
    (linesOf comment).length
  rw [iniParseFile_reports,iniParseFile_reports,hplain,hinserted,Functor.map_map]
  simp only [reported_start,Nat.zero_add,hlength] at hmoved
  exact hmoved

/-- The first 199 characters of a long comment. -/
def longComment : CString := '#'::List.replicate 198 'x'

/-- The key behind the comment in the same line is read, as it is without the comment. -/
theorem comments_transparent_long :
    iniParseFile ("[a]".toList++['\n']++(longComment++"baudrate = 1".toList))
        serialConfigHandler=
      shifted 1 1 <$> iniParseFile ("[a]".toList++['\n']++"baudrate = 1".toList)
        serialConfigHandler := by
  have hline : '\n'∉longComment := by
    rw [longComment,List.mem_cons,List.mem_replicate]
    decide
  have hlength : longComment.length=iniMaxLine-1 := by
    rw [longComment,List.length_cons,List.length_replicate]
    rfl
  have hlines : linesOf longComment=[longComment] := by
    simpa [linesOf_nil] using linesOf_full hline hlength []
  have hcomment : ∀ line∈linesOf longComment,isComment line=true := by
    intro line hl
    rw [hlines,List.mem_singleton] at hl
    rw [hl]
    rfl
  have hmoved := comments_transparent serialConfigHandler (.newline "[a]".toList)
    (.full hline hlength) hcomment "baudrate = 1".toList
  rw [hlines] at hmoved
  exact hmoved

end Comments

end SerialProxy.ParserReports
