import ProgramGraph.Syntax.Reading
import ProgramGraph.Text.Base64

/-! Programs as text: an interpreter turns them into syntax trees. -/
namespace ProgramGraph.Bridge

/-- Runs a script; the answer is what it prints, or why it failed. -/
abbrev Interpreter := String → Except String String

private def scriptHead : List String := [
  "import ast, json, base64",
  "",
  "def constant_value(value):",
  "    if value is None or isinstance(value, (bool, int, float, str)):",
  "        return value",
  "    return repr(value)",
  "",
  "def node_to_dict(node):",
  "    if isinstance(node, ast.AST):",
  "        result = \x7b\"_type\": node.__class__.__name__\x7d",
  "        for field, value in ast.iter_fields(node):",
  "            if field == \"value\" and isinstance(node, ast.Constant):",
  "                result[field] = constant_value(value)",
  "                result[\"_valueType\"] = type(value).__name__",
  "            else:",
  "                result[field] = node_to_dict(value)",
  "        if hasattr(node, \"lineno\"):",
  "            result[\"lineno\"] = node.lineno",
  "        return result",
  "    elif isinstance(node, list):",
  "        return [node_to_dict(x) for x in node]",
  "    else:",
  "        return node",
  ""]

private def scriptTail : List String := [
  "tree = ast.parse(source)",
  "print(json.dumps(node_to_dict(tree)))"]

/-- What stands before the encoded program. -/
def scriptPrefix : String :=
  "\n".intercalate scriptHead ++ "\nsource = base64.b64decode(\""

/-- What stands after the encoded program. -/
def scriptSuffix : String :=
  "\").decode(\"utf-8\")\n" ++ "\n".intercalate scriptTail

/-- The script that prints the syntax tree of a program. The program stands in it in base 64. -/
def script (program : String) : String :=
  scriptPrefix ++ Text.Base64.encodeText program ++ scriptSuffix

/-- The module that a program denotes. -/
def parse (interpreter : Interpreter) (program : String) : Except Diagnostic Module :=
  match interpreter (script program) with
  | .error reason => .error (.bridge ("Python AST bridge failed: " ++ reason))
  | .ok reply => (Module.parse reply).mapError Malformed.diagnostic

end ProgramGraph.Bridge
