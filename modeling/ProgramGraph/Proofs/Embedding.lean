import ProgramGraph.Bridge
import ProgramGraph.Proofs.Encoding

/-! A program in the script that prints its tree: it stands between two quotes on a line of its own,
in characters that neither end the quotes nor the line, and can be read back. -/
namespace ProgramGraph

open Text

namespace Text.Base64

theorem isSymbol_of_mem_encodeText (s : String) : ∀ c ∈ (encodeText s).toList, isSymbol c = true := by
  rw [encodeText, String.toList_ofList]
  exact isSymbol_of_mem_encode _

/-- No character that means something between quotes belongs to an encoding. -/
theorem not_mem_encodeText (s : String) {d : Char} (hd : isSymbol d = false) :
    d ∉ (encodeText s).toList := fun hmem =>
  Bool.eq_false_iff.mp hd (isSymbol_of_mem_encodeText s d hmem)

end Text.Base64

namespace Bridge

def lines (s : String) : List (List Char) := s.toList.splitOn '\n'

/-- The line of a script that holds a program. -/
def sourceLine (encoded : String) : String :=
  "source = base64.b64decode(\"" ++ encoded ++ "\").decode(\"utf-8\")"

/-- What stands between the quotes behind the beginning of a script. -/
def quoted (script : String) : String :=
  String.ofList ((script.toList.drop scriptPrefix.toList.length).takeWhile (· ≠ '"'))

/-- The program that a script reads. -/
def program? (script : String) : Option String := Base64.decodeText? (quoted script)

theorem toList_script (program : String) : (script program).toList =
    scriptPrefix.toList ++ ((Base64.encodeText program).toList ++ scriptSuffix.toList) := by
  rw [script, String.toList_append, String.toList_append, List.append_assoc]

/-- The beginning of a script leaves a line open. -/
theorem toList_scriptPrefix :
    ∃ head, scriptPrefix.toList = head ++ '\n' :: "source = base64.b64decode(\"".toList := by
  obtain ⟨head, hhead⟩ : ∃ head, scriptPrefix = head ++ "\nsource = base64.b64decode(\"" := ⟨_, rfl⟩
  have hline : "\nsource = base64.b64decode(\"".toList =
      '\n' :: "source = base64.b64decode(\"".toList := rfl
  exact ⟨head.toList, by rw [hhead, String.toList_append, hline]⟩

/-- The end of a script closes the quotes and the line. -/
theorem toList_scriptSuffix :
    ∃ tail, scriptSuffix.toList = "\").decode(\"utf-8\")".toList ++ '\n' :: tail := by
  obtain ⟨tail, htail⟩ : ∃ tail, scriptSuffix = "\").decode(\"utf-8\")\n" ++ tail := ⟨_, rfl⟩
  have hline : "\").decode(\"utf-8\")\n".toList = "\").decode(\"utf-8\")".toList ++ ['\n'] := rfl
  exact ⟨tail.toList, by rw [htail, String.toList_append, hline, List.append_assoc]; rfl⟩

theorem quoted_script (program : String) : quoted (script program) = Base64.encodeText program := by
  have hsuffix : scriptSuffix.toList.takeWhile (· ≠ '"') = [] := by
    obtain ⟨tail, htail⟩ := toList_scriptSuffix
    rw [htail]
    rfl
  have hencoded : ∀ c ∈ (Base64.encodeText program).toList, decide (c ≠ '"') = true := fun c hc =>
    decide_eq_true fun he => Base64.not_mem_encodeText program (d := '"') rfl (he ▸ hc)
  rw [quoted, toList_script, List.drop_left, List.takeWhile_append_of_pos hencoded, hsuffix,
    List.append_nil, String.ofList_toList]

theorem toList_sourceLine (encoded : String) : (sourceLine encoded).toList =
    "source = base64.b64decode(\"".toList ++ (encoded.toList ++ "\").decode(\"utf-8\")".toList) := by
  unfold sourceLine
  rw [String.toList_append, String.toList_append, List.append_assoc]

theorem lines_script (program : String) : lines (script program) =
    (lines scriptPrefix).dropLast ++ (sourceLine (Base64.encodeText program)).toList ::
      (lines scriptSuffix).tail := by
  obtain ⟨head, hhead⟩ := toList_scriptPrefix
  obtain ⟨tail, htail⟩ := toList_scriptSuffix
  have hopen : '\n' ∉ "source = base64.b64decode(\"".toList := by decide
  have hclose : '\n' ∉ "\").decode(\"utf-8\")".toList := by decide
  have hline : '\n' ∉ (sourceLine (Base64.encodeText program)).toList := by
    rw [toList_sourceLine]
    simp only [List.mem_append, not_or]
    exact ⟨hopen, Base64.not_mem_encodeText program rfl, hclose⟩
  have hscript : (script program).toList =
      head ++ '\n' :: ((sourceLine (Base64.encodeText program)).toList ++ '\n' :: tail) := by
    rw [toList_script, hhead, htail, toList_sourceLine]
    simp only [List.append_assoc, List.cons_append]
  have hbefore : (lines scriptPrefix).dropLast = head.splitOn '\n' := by
    rw [lines, hhead, List.splitOn_append_cons_self, List.splitOn_eq_singleton hopen,
      List.dropLast_concat]
  have hafter : (lines scriptSuffix).tail = tail.splitOn '\n' := by
    rw [lines, htail, List.splitOn_append_cons_self_of_not_mem hclose, List.tail_cons]
  rw [hbefore, hafter, lines, hscript, List.splitOn_append_cons_self,
    List.splitOn_append_cons_self_of_not_mem hline]

/-- Whatever a program is, its script is one text around an encoding in letters, digits, `+`, `/` and
`=`, which is all that stands between the quotes on its line; no other line depends on it. The
encoding denotes the bytes of the characters that the program is made of, so the script reads the
program itself, and different programs have different scripts. -/
theorem script_embeds (program : String) :
    script program = scriptPrefix ++ Base64.encodeText program ++ scriptSuffix ∧
      (∀ c ∈ (Base64.encodeText program).toList, Base64.isSymbol c = true) ∧
      quoted (script program) = Base64.encodeText program ∧
      lines (script program) = (lines scriptPrefix).dropLast ++
        (sourceLine (Base64.encodeText program)).toList :: (lines scriptSuffix).tail ∧
      Base64.decode (Base64.encodeText program).toList =
        some ((ofUnits (units program)).flatMap String.utf8EncodeChar) ∧
      program? (script program) = some program ∧
      ∀ other, script other = script program → other = program := by
  have hread : ∀ p, program? (script p) = some p := fun p => by
    rw [program?, quoted_script, Base64.decodeText?_encodeText]
  refine ⟨rfl, Base64.isSymbol_of_mem_encodeText program, quoted_script program,
    lines_script program, ?_, hread program, ?_⟩
  · rw [Base64.encodeText, String.toList_ofList, Base64.decode_encode, toUTF8_data, ofUnits_units]
  · intro other hother
    have hboth := hread other
    rw [hother, hread program] at hboth
    exact (Option.some.inj hboth).symm

end Bridge
end ProgramGraph
