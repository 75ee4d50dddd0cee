/-!
Words with a meaning of their own in Dart sources and in the framework.
-/
namespace DeadCode.Source

def reservedWords : List String :=
  ["abstract", "as", "assert", "async", "await", "base", "break", "case", "catch", "class",
   "const", "continue", "covariant", "default", "deferred", "do", "dynamic", "else", "enum",
   "export", "extends", "extension", "external", "factory", "false", "final", "finally", "for",
   "Function", "get", "hide", "if", "implements", "import", "in", "interface", "is", "late",
   "library", "mixin", "new", "null", "of", "on", "operator", "part", "required", "rethrow",
   "return", "sealed", "set", "show", "static", "super", "switch", "sync", "this", "throw",
   "true", "try", "type", "typedef", "var", "void", "when", "while", "with", "yield"]

def isReserved (word : String) : Bool := reservedWords.contains word

/-- First words of lines that define no function. -/
def statementLeaders : List String :=
  ["return", "throw", "await", "yield", "if", "for", "while", "switch", "catch", "else", "assert",
   "case", "do", "try", "new", "var", "final", "late", "break", "continue", "rethrow", "super",
   "this", "default", "finally", "in", "is", "as", "print"]

/-- Words that may stand right before a call, and never before the name of a definition. -/
def callLeaders : List String :=
  ["return", "await", "throw", "new", "yield", "else", "in", "is", "as", "case", "set",
   "operator", "get", "if", "while", "for", "switch", "when"]

def frameworkMethods : List String :=
  ["build", "initState", "dispose", "didChangeDependencies", "didUpdateWidget", "deactivate",
   "activate", "reassemble", "createState", "createElement", "debugFillProperties", "toString",
   "noSuchMethod", "hashCode", "didChangeAppLifecycleState", "didChangeMetrics",
   "didChangeLocales", "didChangeTextScaleFactor", "didChangePlatformBrightness",
   "didHaveMemoryPressure", "didPopRoute", "didPushRoute", "didPushRouteInformation",
   "didRequestAppExit", "shouldRepaint", "shouldRebuild", "shouldReclip", "shouldRelayout",
   "paint", "getClip", "getSize", "getPositionForChild", "getConstraintsForChild",
   "performLayout", "createRenderObject", "updateRenderObject", "didUnmountRenderObject",
   "updateShouldNotify", "updateShouldNotifyDependent", "applyPaintTransform",
   "hitTestChildren", "computeDryLayout", "listen", "onError", "onChange", "onTransition",
   "onEvent", "close", "fromJson", "toJson", "props"]

def isFrameworkMethod (name : String) : Bool := frameworkMethods.contains name

end DeadCode.Source
