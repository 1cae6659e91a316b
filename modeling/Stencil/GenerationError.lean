import Stencil.Signature.Basic
import Stencil.TemplateError

namespace Stencil

/-! What can be wrong between the components of a build. -/

namespace GenerationError

inductive Kind where
  | template
  | missingAttribute
  | malformedAttribute
  | malformedCall
  deriving DecidableEq, Repr

def Kind.title : Kind → String
  | .template => "Parse error"
  | .missingAttribute => "Missing required attribute"
  | .malformedAttribute => "Malformed attribute"
  | .malformedCall => "Malformed generated call"

inductive Misfit where
  | emptyValue
  | literal (text : String)
  | mixedText
  deriving DecidableEq, Repr

def Misfit.message : Misfit → String
  | .emptyValue => "an empty value"
  | .literal text => "the literal `" ++ text ++ "`"
  | .mixedText => "text mixed with expressions"

inductive Cause where
  | template (error : TemplateError)
  | conflictingTypes (name first second : String)
  | missingFunction (target : String)
  | missingSignature (component : String)
  | misfit (target : String) (parameter : Parameter) (value : Misfit)
  | repeatedArgument (target parameter : String)
  | missingArgument (target : String) (parameter : Parameter)
  deriving DecidableEq, Repr

namespace Cause

def kind : Cause → Kind
  | .template _ => .template
  | .conflictingTypes _ _ _ | .misfit _ _ _ | .repeatedArgument _ _ =>
      .malformedAttribute
  | .missingFunction _ | .missingSignature _ => .malformedCall
  | .missingArgument _ _ => .missingAttribute

def message : Cause → String
  | .template error => error.message
  | .conflictingTypes name first second =>
      "`" ++ name ++ "` is used as both `" ++ first ++ "` and `" ++ second ++
        "`"
  | .missingFunction target =>
      "placeholder refers to '" ++ target ++
        "', which has no generated function"
  | .missingSignature component =>
      "no signature was derived for '" ++ component ++ "'"
  | .misfit target parameter value =>
      "<" ++ target ++ "> `" ++ parameter.text ++ "` cannot take " ++
        value.message
  | .repeatedArgument target parameter =>
      "<" ++ target ++ "> receives `" ++ parameter ++ "` twice"
  | .missingArgument target parameter =>
      "<" ++ target ++ "> needs a value for `" ++ parameter.text ++ "`"

end Cause

end GenerationError

structure GenerationError where
  cause : GenerationError.Cause
  excerpt : String
  component : Option String
  deriving DecidableEq, Repr

namespace GenerationError

def ofHtml (html : String) (cause : Cause) : GenerationError :=
  ⟨cause, Text.excerpt html.toList, none⟩

def ofTemplate (error : TemplateError) : GenerationError :=
  ⟨.template error, "", none⟩

def inComponent (error : GenerationError) (component : String) :
    GenerationError :=
  { error with component := some component }

def detail (error : GenerationError) : String :=
  error.cause.message

def message (error : GenerationError) : String :=
  let origin := match error.component with
    | some component => " in component '" ++ component ++ "'"
    | none => ""
  let near := if error.excerpt.isEmpty then "" else " (near `" ++
    error.excerpt ++ "`)"
  error.cause.kind.title ++ origin ++ ": " ++ error.detail ++ near

end GenerationError

end Stencil
