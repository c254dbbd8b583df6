import SerialProxy.SerialConfig
import Mathlib.Data.List.DropRight

/-!
# The configuration parser

ini.c reads a stream line by line into a buffer of `INI_MAX_LINE` characters and
calls a handler for each `name=value` pair. A longer line is read in parts, each of
them taken as a line of its own, and a section is cut to `MAX_SECTION`. What the
handler is called with depends on the text alone.
-/

namespace SerialProxy.IniParser

open FaultPrograms CText SerialState SerialConfig

/-- `INI_MAX_LINE`. -/
def iniMaxLine : ℕ := 200

/-- `MAX_SECTION`. -/
def maxSection : ℕ := 50

/-- `MAX_NAME`. -/
def maxName : ℕ := 50

/-- The part of a stream that fits a number of characters, up to and with the first newline. -/
def takeLine : ℕ → CString → CString×CString
  | 0,stream => ([],stream)
  | _+1,[] => ([],[])
  | room+1,c::stream =>
    if c= '\n' then ([c],stream)
    else (c::(takeLine room stream).1,(takeLine room stream).2)

/-- `fgets(line, size, stream)`, with the rest of the stream; nothing at its end. -/
def fgets (size : ℕ) (stream : CString) : Option (CString×CString) :=
  if stream=[] then none else some (takeLine (size-1) stream)

/-- `rstrip`. -/
def rstrip (s : CString) : CString := s.rdropWhile isspace

/-- `lskip`. -/
def lskip (s : CString) : CString := s.dropWhile isspace

/-- The loop of `find_chars_or_comment`, with `was_space`. -/
def findFrom (chars : CString) : Bool → CString → CString×CString
  | _,[] => ([],[])
  | wasSpace,c::s =>
    if c∈chars ∨ wasSpace=true ∧ c= ';' then ([],c::s)
    else (c::(findFrom chars (isspace c) s).1,(findFrom chars (isspace c) s).2)

/-- `find_chars_or_comment`: what is before the place found and what starts there. -/
def findCharsOrComment (s chars : CString) : CString×CString := findFrom chars false s

/-- `strncpy0`. -/
def strncpy0 (src : CString) (size : ℕ) : CString := src.take (size-1)

/-- The byte order mark of UTF-8. -/
def bom : CString := [Char.ofNat 0xEF,Char.ofNat 0xBB,Char.ofNat 0xBF]

/-- What the parser takes a line for. -/
inductive LineKind
  /-- Blank, or a comment. -/
  | ignored
  /-- More of the value before. -/
  | continued (value : CString)
  /-- A section. -/
  | header (name : CString)
  /-- A name with its value. -/
  | pair (name value : CString)
  /-- Neither. -/
  | malformed
  deriving DecidableEq

/-- The branches of the loop of `ini_parse_stream`, without their effects, for a line that
begins at `start`; `indented` is `start > line`. -/
def startKind (prevName : CString) (indented : Bool) (start : CString) : LineKind :=
  match start with
  | [] => .ignored
  | c::rest =>
    if c= ';' ∨ c= '#' then .ignored
    else if prevName≠[] ∧ indented=true then .continued start
    else if c= '[' then
      match findCharsOrComment rest [']'] with
      | (name,']'::_) => .header name
      | _ => .malformed
    else
      match findCharsOrComment start ['=',':'] with
      | (name,c::value) =>
        if c= '=' ∨ c= ':' then
          .pair (rstrip name) (rstrip (findCharsOrComment (lskip value) []).1)
        else .malformed
      | (_,[]) => .malformed

/-- The first line starts with a byte order mark, which is skipped. -/
def marked (lineno : ℕ) (line : CString) : Bool := lineno=1 && bom.isPrefixOf line

/-- The text of a line, without the mark and the white space behind it. -/
def stripped (lineno : ℕ) (line : CString) : CString :=
  let text := line.takeWhile (·≠ '\x00')
  rstrip (if marked lineno text=true then text.drop 3 else text)

/-- What the parser takes a line for, behind `start = lskip(rstrip(start))`. -/
def lineKind (lineno : ℕ) (prevName line : CString) : LineKind :=
  let text := stripped lineno line
  let skipped := marked lineno (line.takeWhile (·≠ '\x00'))
  startKind prevName (skipped || (lskip text).length<text.length) (lskip text)

/-- What the parser remembers between lines. -/
structure Cursor where
  /-- The section, cut to its buffer. -/
  sectionName : CString
  /-- The last name, cut to its buffer. -/
  prevName : CString
  /-- Number of lines read. -/
  lineno : ℕ

/-- The local variables of `ini_parse_stream`. -/
structure IniState where
  /-- The place in the stream. -/
  cursor : Cursor
  /-- Number of the first line with an error, or 0. -/
  error : ℕ

/-- `if (!ok && !error) error = lineno`. -/
def IniState.report (st : IniState) (ok : Bool) : IniState :=
  if ok=false ∧ st.error=0 then {st with error := st.cursor.lineno} else st

/-- One turn of the loop of `ini_parse_stream`. -/
def iniLine (handler : ConfigEntry → Prog Bool) (st : IniState) (line : CString) :
    Prog IniState := do
  let c := {st.cursor with lineno := st.cursor.lineno+1}
  match lineKind c.lineno c.prevName line with
  | .ignored => pure {st with cursor := c}
  | .continued value =>
    let ok ← handler ⟨c.sectionName,c.prevName,value⟩
    pure (IniState.report ⟨c,st.error⟩ ok)
  | .header name =>
    pure {st with cursor := {c with sectionName := strncpy0 name maxSection, prevName := []}}
  | .pair name value =>
    let c := {c with prevName := strncpy0 name maxName}
    let ok ← handler ⟨c.sectionName,name,value⟩
    pure (IniState.report ⟨c,st.error⟩ ok)
  | .malformed => pure (IniState.report ⟨c,st.error⟩ false)

/-- The loop of `ini_parse_stream`; every turn takes at least one character. -/
def iniLoop (handler : ConfigEntry → Prog Bool) : ℕ → IniState → CString → Prog IniState
  | bound,st,stream =>
    match fgets iniMaxLine stream,bound with
    | none,_ => pure st
    | some _,0 => throw .diverges
    | some (line,rest),bound+1 => do
      let st ← iniLine handler st line
      iniLoop handler bound st rest

/-- `ini_parse_stream` with `fgets`, which is `ini_parse_file`. -/
def iniParseFile (stream : CString) (handler : ConfigEntry → Prog Bool) : Prog ℕ := do
  let st ← iniLoop handler stream.length ⟨⟨[],[],0⟩,0⟩ stream
  pure st.error

/-- `ini_parse`, with the contents of the file, if it can be opened. -/
def iniParse (file : Option CString) (handler : ConfigEntry → Prog Bool) : Prog ℤ :=
  match file with
  | none => pure (-1)
  | some stream => do
    let error ← iniParseFile stream handler
    pure error

/-- `serialLoadConfig`, with the contents of the files that can be opened. -/
def serialLoadConfig (filename : Option CString) (files : CString → Option CString) :
    Prog Unit := do
  match filename with
  | none =>
    emit (.stderr "Serial config file must be given\n".toList)
    throw (.exit 1)
  | some filename =>
    let error ← iniParse (files filename) serialConfigHandler
    if error<0 then
      emit (.stderr ("Can't load serial config file: ".toList++filename++"\n".toList))
      throw (.exit 1)

/-- The place behind a line. -/
def Cursor.next (c : Cursor) (line : CString) : Cursor :=
  let c := {c with lineno := c.lineno+1}
  match lineKind c.lineno c.prevName line with
  | .header name => {c with sectionName := strncpy0 name maxSection, prevName := []}
  | .pair name _ => {c with prevName := strncpy0 name maxName}
  | _ => c

/-- What the handler is called with for a line, if it is called. -/
def Cursor.call (c : Cursor) (line : CString) : Option ConfigEntry :=
  match lineKind (c.lineno+1) c.prevName line with
  | .continued value => some ⟨c.sectionName,c.prevName,value⟩
  | .pair name value => some ⟨c.sectionName,name,value⟩
  | _ => none

/-- The lines that `fgets` returns, at most so many. -/
def readLines : ℕ → CString → List CString
  | 0,_ => []
  | bound+1,stream =>
    match fgets iniMaxLine stream with
    | none => []
    | some (line,rest) => line::readLines bound rest

/-- The lines of a stream, as the parser reads them. -/
def linesOf (stream : CString) : List CString := readLines stream.length stream

/-- The calls of the handler for some lines, in order. -/
def callsOf (c : Cursor) : List CString → List ConfigEntry
  | [] => []
  | line::lines => (c.call line).toList++callsOf (c.next line) lines

/-- The place behind some lines. -/
def Cursor.behind (c : Cursor) (lines : List CString) : Cursor := lines.foldl Cursor.next c

/-- The calls of the handler for a stream. -/
def parsed (stream : CString) : List ConfigEntry := callsOf ⟨[],[],0⟩ (linesOf stream)

section Reading

variable {stream l rest : CString} {c : Char}

/-- A line and the rest behind it are the whole stream. -/
theorem takeLine_append (room : ℕ) (stream : CString) :
    (takeLine room stream).1++(takeLine room stream).2=stream := by
  induction room,stream using takeLine.induct with
  | case1 stream => rfl
  | case2 room => rfl
  | case3 room stream => rfl
  | case4 room c stream hc ih =>
    rw [takeLine,if_neg hc,List.cons_append,ih]

/-- A line fits its buffer. -/
theorem takeLine_length (room : ℕ) (stream : CString) : (takeLine room stream).1.length≤room := by
  induction room,stream using takeLine.induct with
  | case1 stream => exact Nat.le_refl 0
  | case2 room => exact Nat.zero_le _
  | case3 room stream =>
    rw [takeLine,if_pos rfl]
    simp
  | case4 room c stream hc ih =>
    rw [takeLine,if_neg hc,List.length_cons]
    omega

/-- A line has at least one character. -/
theorem takeLine_ne_nil {room : ℕ} (hroom : 0<room) (h : stream≠[]) :
    (takeLine room stream).1≠[] := by
  obtain ⟨room,rfl⟩ := Nat.exists_eq_succ_of_ne_zero hroom.ne'
  cases stream with
  | nil => exact absurd rfl h
  | cons c stream =>
    rw [takeLine]
    split <;> exact List.cons_ne_nil _ _

/-- A line that fits is read with its newline. -/
theorem takeLine_of_fits {room : ℕ} (hl : '\n'∉l) (h : l.length<room) :
    takeLine room (l++ '\n'::rest)=(l++['\n'],rest) := by
  induction l generalizing room with
  | nil =>
    obtain ⟨room,rfl⟩ := Nat.exists_eq_succ_of_ne_zero (Nat.ne_of_gt h)
    rfl
  | cons c l ih =>
    obtain ⟨hc,hl⟩ := not_or.mp (mt List.mem_cons.mpr hl)
    obtain ⟨room,rfl⟩ := Nat.exists_eq_succ_of_ne_zero (Nat.ne_zero_of_lt h)
    rw [List.cons_append,takeLine,if_neg (Ne.symm hc),ih hl (Nat.lt_of_succ_lt_succ h)]
    rfl

/-- Of a longer line only the front is read. -/
theorem takeLine_of_long {room : ℕ} (hl : '\n'∉l) (h : room≤l.length) :
    takeLine room (l++rest)=(l.take room,l.drop room++rest) := by
  induction room generalizing l with
  | zero => cases l <;> rfl
  | succ room ih =>
    cases l with
    | nil => exact absurd h (Nat.not_succ_le_zero room)
    | cons c l =>
      obtain ⟨hc,hl⟩ := not_or.mp (mt List.mem_cons.mpr hl)
      rw [List.cons_append,takeLine,if_neg (Ne.symm hc),ih hl (Nat.le_of_succ_le_succ h)]
      rfl

/-- At the end of the stream there is no line. -/
theorem fgets_nil (size : ℕ) : fgets size []=none := if_pos rfl

/-- Before the end there is one. -/
theorem fgets_of_ne_nil (h : stream≠[]) :
    fgets iniMaxLine stream=some (takeLine (iniMaxLine-1) stream) := if_neg h

/-- Every line takes something off the stream. -/
theorem rest_lt (h : stream≠[]) : (takeLine (iniMaxLine-1) stream).2.length<stream.length := by
  have hlength := congrArg List.length (takeLine_append (iniMaxLine-1) stream)
  have hpos := List.length_pos_of_ne_nil (takeLine_ne_nil (show 0 < iniMaxLine-1 by decide) h)
  rw [List.length_append] at hlength
  omega

/-- The empty stream has no lines. -/
theorem readLines_nil (bound : ℕ) : readLines bound []=[] := by
  cases bound with
  | zero => rfl
  | succ bound => rw [readLines,fgets_nil]

/-- Another stream has a first line and the lines behind it. -/
theorem readLines_cons (bound : ℕ) (h : stream≠[]) : readLines (bound+1) stream=
    (takeLine (iniMaxLine-1) stream).1::
      readLines bound (takeLine (iniMaxLine-1) stream).2 := by
  rw [readLines,fgets_of_ne_nil h]

/-- A bound that covers the stream does not matter. -/
theorem readLines_eq {bound bound' : ℕ} (h : stream.length≤bound) (h' : stream.length≤bound') :
    readLines bound stream=readLines bound' stream := by
  induction bound generalizing bound' stream with
  | zero =>
    obtain rfl := List.length_eq_zero_iff.mp (Nat.le_zero.mp h)
    rw [readLines_nil,readLines_nil]
  | succ bound ih =>
    by_cases hs : stream=[]
    · rw [hs,readLines_nil,readLines_nil]
    · have hlt := rest_lt hs
      cases bound' with
      | zero => exact absurd (List.length_eq_zero_iff.mp (Nat.le_zero.mp h')) hs
      | succ bound' =>
        have htail := @ih _ bound' (Nat.le_of_lt_succ (hlt.trans_le h))
          (Nat.le_of_lt_succ (hlt.trans_le h'))
        rw [readLines_cons _ hs,readLines_cons _ hs,htail]

/-- The empty stream has no lines. -/
theorem linesOf_nil : linesOf []=[] := rfl

/-- Another stream has a first line and the lines of the rest. -/
theorem linesOf_cons (h : stream≠[]) : linesOf stream=
    (takeLine (iniMaxLine-1) stream).1::linesOf (takeLine (iniMaxLine-1) stream).2 := by
  have hpos := List.length_pos_of_ne_nil h
  have hlt := rest_lt h
  obtain ⟨bound,hbound⟩ := Nat.exists_eq_succ_of_ne_zero hpos.ne'
  rw [linesOf,hbound,readLines_cons bound h,readLines_eq (by omega) (Nat.le_refl _)]
  rfl

/-- No line is longer than the buffer. -/
theorem length_of_mem_linesOf {line : CString} (h : line∈linesOf stream) :
    line.length < iniMaxLine := by
  generalize hn : stream.length=n
  induction n using Nat.strong_induction_on generalizing stream with
  | _ n ih =>
    by_cases hs : stream=[]
    · rw [hs,linesOf_nil] at h
      exact absurd h (by simp)
    · rw [linesOf_cons hs] at h
      rcases List.mem_cons.mp h with rfl|h
      · exact Nat.lt_of_le_of_lt (takeLine_length _ stream) (by decide)
      · exact ih _ (hn ▸ rest_lt hs) h rfl

/-- A line that fits is one line of the stream. -/
theorem linesOf_of_fits (hl : '\n'∉l) (h : l.length < iniMaxLine-1) :
    linesOf (l++ '\n'::rest)=(l++['\n'])::linesOf rest := by
  rw [linesOf_cons (List.append_ne_nil_of_right_ne_nil _ (List.cons_ne_nil _ _)),
    takeLine_of_fits hl h]

/-- A longer line is read in parts. -/
theorem linesOf_of_long (hl : '\n'∉l) (h : iniMaxLine-1≤l.length) :
    linesOf (l++rest)=l.take (iniMaxLine-1)::linesOf (l.drop (iniMaxLine-1)++rest) := by
  have hne : l++rest≠[] := by
    intro he
    rw [(List.append_eq_nil_iff.mp he).1] at h
    exact absurd h (by decide)
  rw [linesOf_cons hne,takeLine_of_long hl h]

end Reading

section Calls

variable {c : Cursor} {line stream : CString} {lines lines' : List CString} {e : ConfigEntry}

/-- The calls for two groups of lines come one after another. -/
theorem callsOf_append (c : Cursor) (lines lines' : List CString) :
    callsOf c (lines++lines')=callsOf c lines++callsOf (c.behind lines) lines' := by
  induction lines generalizing c with
  | nil => rfl
  | cons line lines ih =>
    rw [List.cons_append,callsOf,callsOf,ih,List.append_assoc]
    rfl

/-- One turn of the loop calls the handler as its line says and moves on. -/
theorem iniLine_eq (handler : ConfigEntry → Prog Bool) (st : IniState) (line : CString) :
    ∃ f : Bool → IniState,(∀ ok,(f ok).cursor=st.cursor.next line) ∧
      iniLine handler st line=match st.cursor.call line with
        | none => pure (f false)
        | some e => handler e >>= fun ok => pure (f ok) := by
  have hreport : ∀ (st : IniState) (ok : Bool),(st.report ok).cursor=st.cursor := by
    intro st ok
    rw [IniState.report]
    split <;> rfl
  unfold iniLine Cursor.call Cursor.next
  dsimp only
  cases lineKind (st.cursor.lineno+1) st.cursor.prevName line with
  | ignored => exact ⟨fun _ => ⟨_,st.error⟩,fun _ => rfl,rfl⟩
  | continued value => exact ⟨IniState.report ⟨_,st.error⟩,hreport _,rfl⟩
  | header name => exact ⟨fun _ => ⟨_,st.error⟩,fun _ => rfl,rfl⟩
  | pair name value => exact ⟨IniState.report ⟨_,st.error⟩,hreport _,rfl⟩
  | malformed => exact ⟨fun _ => IniState.report ⟨_,st.error⟩ false,fun _ => hreport _ false,rfl⟩

/-- One turn of the loop. -/
theorem iniLoop_cons (handler : ConfigEntry → Prog Bool) (bound : ℕ) (st : IniState)
    (h : stream≠[]) : iniLoop handler (bound+1) st stream=
      iniLine handler st (takeLine (iniMaxLine-1) stream).1 >>= fun st =>
        iniLoop handler bound st (takeLine (iniMaxLine-1) stream).2 := by
  conv_lhs => unfold iniLoop
  rw [fgets_of_ne_nil h]

/-- The loop calls the handler as the lines of the stream say. -/
theorem iniLoop_eq (handler : ConfigEntry → Prog Bool) (bound : ℕ) (st : IniState)
    (h : stream.length≤bound) : (iniLoop handler bound st stream >>= fun _ => pure ())=
      (callsOf st.cursor (linesOf stream)).forM fun e => handler e >>= fun _ => pure () := by
  induction bound generalizing st stream with
  | zero =>
    obtain rfl := List.length_eq_zero_iff.mp (Nat.le_zero.mp h)
    rfl
  | succ bound ih =>
    by_cases hs : stream=[]
    · subst hs
      rfl
    · have hlt := rest_lt hs
      obtain ⟨f,hf,hline⟩ := iniLine_eq handler st (takeLine (iniMaxLine-1) stream).1
      have hrest := fun ok => ih (f ok) (Nat.le_of_lt_succ (hlt.trans_le h))
      rw [linesOf_cons hs,callsOf,iniLoop_cons handler bound st hs,hline]
      cases st.cursor.call (takeLine (iniMaxLine-1) stream).1 with
      | none =>
        rw [pure_bind,hrest,hf]
        rfl
      | some e =>
        simp only [bind_assoc,pure_bind,hrest,hf,Option.toList_some,List.singleton_append,
          List.forM_eq_forM,List.forM_cons]

/-- Loading a file that can be opened hands what the parser finds in it to the callback. -/
theorem serialLoadConfig_eq {filename : CString} {files : CString → Option CString}
    (h : files filename=some stream) :
    serialLoadConfig (some filename) files=loadEntries (parsed stream) := by
  have hloop := iniLoop_eq serialConfigHandler stream.length ⟨⟨[],[],0⟩,0⟩ (Nat.le_refl _)
  refine Eq.trans ?_ hloop
  unfold serialLoadConfig
  simp only [h,iniParse,iniParseFile,bind_assoc,pure_bind]
  refine bind_congr fun st => if_neg ?_
  omega

end Calls

section Bounds

variable {c : Cursor} {line stream : CString} {lines : List CString} {e : ConfigEntry}
variable {lineno : ℕ} {prevName name value : CString}

/-- What is before the place found and what starts there are the whole text. -/
theorem findFrom_append (chars : CString) (wasSpace : Bool) (s : CString) :
    (findFrom chars wasSpace s).1++(findFrom chars wasSpace s).2=s := by
  induction s generalizing wasSpace with
  | nil => rfl
  | cons c s ih =>
    rw [findFrom]
    split
    · rfl
    · rw [List.cons_append,ih]

/-- Stripping the end makes no text longer. -/
theorem rstrip_length (s : CString) : (rstrip s).length ≤ s.length :=
  (List.rdropWhile_prefix isspace s).length_le

/-- Neither does skipping white space. -/
theorem lskip_length (s : CString) : (lskip s).length ≤ s.length :=
  (List.dropWhile_suffix isspace).length_le

/-- The two parts of a search have together the length of the text. -/
theorem findFrom_length (chars : CString) (wasSpace : Bool) (s : CString) :
    (findFrom chars wasSpace s).1.length+(findFrom chars wasSpace s).2.length=s.length := by
  rw [← List.length_append,findFrom_append]

/-- The text of a line is not longer than the line. -/
theorem stripped_length (lineno : ℕ) (line : CString) :
    (stripped lineno line).length≤line.length := by
  have hcut : (line.takeWhile (·≠ '\x00')).length≤line.length :=
    (List.takeWhile_prefix _).length_le
  refine (rstrip_length _).trans ?_
  split
  · rw [List.length_drop]
    omega
  · exact hcut

/-- A continuation is a part of the line. -/
theorem continued_length (h : lineKind lineno prevName line=.continued value) :
    value.length≤line.length := by
  have hstart := (lskip_length _).trans (stripped_length lineno line)
  unfold lineKind startKind at h
  grind

/-- A pair is what is before and behind a separator. -/
theorem startKind_pair {indented : Bool} {start : CString}
    (h : startKind prevName indented start=.pair name value) : ∃ before sep after,
      findCharsOrComment start ['=',':']=(before,sep::after) ∧ name=rstrip before ∧
        value=rstrip (findCharsOrComment (lskip after) []).1 := by
  unfold startKind at h
  grind

/-- A pair is a part of the line, with a separator between the two. -/
theorem pair_length (h : lineKind lineno prevName line=.pair name value) :
    name.length+1+value.length≤line.length := by
  have hstart := (lskip_length _).trans (stripped_length lineno line)
  obtain ⟨before,sep,after,hfind,rfl,rfl⟩ := startKind_pair h
  have hlength := findFrom_length ['=',':'] false (lskip (stripped lineno line))
  rw [show findFrom ['=',':'] false (lskip (stripped lineno line))=(before,sep::after) from hfind,
    List.length_cons] at hlength
  have hname := rstrip_length before
  have hvalue := rstrip_length (findCharsOrComment (lskip after) []).1
  have hcomment := findFrom_length [] false (lskip after)
  have hskip := lskip_length after
  unfold findCharsOrComment at hvalue ⊢
  dsimp only at hlength
  omega

/-- The names the parser remembers fit their buffers. -/
structure Cursor.Fits (c : Cursor) : Prop where
  /-- The section. -/
  sectionName : c.sectionName.length < maxSection
  /-- The last name. -/
  prevName : c.prevName.length < maxName

/-- A copy fits its buffer with the null character. -/
theorem strncpy0_length (src : CString) {size : ℕ} (h : 0<size) :
    (strncpy0 src size).length<size := by
  rw [strncpy0,List.length_take]
  omega

/-- The buffers of the parser fit behind every line. -/
theorem Cursor.Fits.next (h : c.Fits) (line : CString) : (c.next line).Fits := by
  unfold Cursor.next
  dsimp only
  split
  · exact ⟨strncpy0_length _ (by decide),(by decide : 0 < maxName)⟩
  · exact ⟨h.sectionName,strncpy0_length _ (by decide)⟩
  · exact ⟨h.sectionName,h.prevName⟩

/-- What the handler is called with fits the section buffer and the line buffer. -/
structure Bounded (e : ConfigEntry) : Prop where
  /-- The section is cut. -/
  sectionName : e.sectionName.length < maxSection
  /-- The value is a part of a line. -/
  value : e.value.length < iniMaxLine
  /-- A name that takes the line leaves nothing for the value. -/
  name : e.name.length+2 < iniMaxLine ∨ e.value=[]

/-- What the handler is called with fits the bounds of the parser. -/
theorem Cursor.Fits.call (h : c.Fits) (hline : line.length < iniMaxLine) (he : c.call line=some e) :
    Bounded e := by
  have hmax : maxName+2 ≤ iniMaxLine := by decide
  unfold Cursor.call at he
  split at he
  · next value hk =>
    obtain rfl := Option.some.inj he
    have hvalue := continued_length hk
    have hprev := h.prevName
    exact ⟨h.sectionName,hvalue.trans_lt hline,.inl (by dsimp only; omega)⟩
  · next name value hk =>
    obtain rfl := Option.some.inj he
    have hpair := pair_length hk
    refine ⟨h.sectionName,by dsimp only; omega,?_⟩
    cases value with
    | nil => exact .inr rfl
    | cons c value =>
      rw [List.length_cons] at hpair
      exact .inl (by dsimp only; omega)
  · exact absurd he.symm (Option.some_ne_none e)

/-- So does each of the calls for some lines. -/
theorem callsOf_bounded (h : c.Fits) (hlines : ∀ line∈lines,line.length < iniMaxLine) :
    ∀ e∈callsOf c lines,Bounded e := by
  induction lines generalizing c with
  | nil =>
    intro e he
    cases he
  | cons line lines ih =>
    intro e he
    rcases List.mem_append.mp he with hcall|he
    · exact h.call (hlines line List.mem_cons_self) (Option.mem_toList.mp hcall)
    · exact ih (h.next line) (fun l hl => hlines l (List.mem_cons_of_mem _ hl)) e he

/-- Whatever the text, the buffers bound what the handler is called with. -/
theorem parsed_bounded (stream : CString) : ∀ e∈parsed stream,Bounded e :=
  callsOf_bounded ⟨by decide,by decide⟩ fun _ hl => length_of_mem_linesOf hl

end Bounds

end SerialProxy.IniParser
