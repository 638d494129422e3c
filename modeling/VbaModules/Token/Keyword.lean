import VbaModules.Text.Ascii

/-!
# Keywords

The closed set of reserved words: the keywords of the language, the built-in functions whose
letter case the editor restores, and the names of the module attributes. The flags `B`, `BF` and
`F` of the `Line` method are left out, since they are ordinary identifiers everywhere else.
-/

namespace VbaModules.Keyword

/-- Every reserved word in the editor's spelling. -/
def all : List String := [
  "Abs", "Access", "AddressOf", "Alias", "And", "Any", "Append", "Array", "As", "Assert",
  "Attribute", "Base", "Binary", "Boolean", "ByRef", "ByVal", "Byte", "CBool", "CByte", "CCur",
  "CDate", "CDbl", "CDec", "CDecl", "CInt", "CLng", "CLngLng", "CLngPtr", "CSng", "CStr", "CVDate",
  "CVErr", "CVar", "Call", "Case", "ChDir", "Circle", "Close", "Compare", "Const", "CurDir",
  "Currency", "Database", "Date", "Debug", "Decimal", "Declare", "DefBool", "DefByte", "DefCur",
  "DefDate", "DefDbl", "DefDec", "DefInt", "DefLng", "DefLngLng", "DefLngPtr", "DefObj", "DefSng",
  "DefStr", "DefVar", "Dim", "Dir", "Do", "DoEvents", "Double", "Each", "Else", "ElseIf", "Empty",
  "End", "EndIf", "Enum", "Eqv", "Erase", "Error", "Event", "Exit", "Explicit", "False", "Fix",
  "For", "Format", "FreeFile", "Friend", "Function", "Get", "Global", "Go", "GoSub", "GoTo", "If",
  "IIf", "Imp", "Implements", "In", "InStr", "InStrB", "Input", "InputB", "Int", "Integer", "Is",
  "LBound", "LINEINPUT", "LSet", "Left", "Len", "LenB", "Let", "Lib", "Like", "Line", "Load",
  "Local", "Lock", "Long", "LongLong", "LongPtr", "Loop", "Me", "Mid", "MidB", "Mod", "Module",
  "MultiUse", "Name", "New", "Next", "Not", "Nothing", "Null", "Object", "On", "Open", "Option",
  "Optional", "Or", "Output", "PSet", "ParamArray", "Preserve", "Print", "Private", "Property",
  "PtrSafe", "Public", "Put", "RGB", "RSet", "RaiseEvent", "Random", "Randomize", "ReDim", "Read",
  "Rem", "Resume", "Return", "Scale", "Seek", "Select", "Set", "Sgn", "Shared", "Single", "Spc",
  "Static", "Step", "Stop", "StrComp", "String", "Sub", "Tab", "Text", "Then", "ThisWorkbook", "To",
  "True", "Type", "TypeOf", "UBound", "Unknown", "Unload", "Unlock", "Until", "VB_Base",
  "VB_Control", "VB_Creatable", "VB_Customizable", "VB_Description", "VB_Exposed", "VB_Ext_KEY",
  "VB_GlobalNameSpace", "VB_HelpID", "VB_Invoke_Func", "VB_Invoke_Property",
  "VB_Invoke_PropertyPut", "VB_Invoke_PropertyPutRef", "VB_MemberFlags", "VB_Name",
  "VB_PredeclaredId", "VB_ProcData", "VB_TemplateDerived", "VB_UserMemId", "VB_VarDescription",
  "VB_VarHelpID", "VB_VarMemberFlags", "VB_VarProcData", "VB_VarUserMemId", "Variant", "Wend",
  "While", "Width", "Win32", "Win64", "With", "WithEvents", "Write", "Workbook", "Xor"]

/-- The reserved words under their folded spelling. -/
def byFolded : List (String × String) :=
  all.map fun word => (Text.foldCase word, word)

/-- The editor's spelling of a reserved word, e.g. `ByVal` for `byval`. -/
def editorSpelling? (word : String) : Option String :=
  byFolded.lookup (Text.foldCase word)

/-- Whether a word is reserved, in any letter case. -/
def contains (word : String) : Bool :=
  (editorSpelling? word).isSome

end VbaModules.Keyword
