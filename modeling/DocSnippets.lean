import DocSnippets.Main
import DocSnippets.Proofs.Compiler.Blame
import DocSnippets.Proofs.Compiler.Printed
import DocSnippets.Proofs.Diagnostic.Reported
import DocSnippets.Proofs.Markdown.Regions
import DocSnippets.Proofs.Package.Selection
import DocSnippets.Proofs.Run.Disclosure
import DocSnippets.Proofs.Run.Frame
import DocSnippets.Proofs.Run.Independence
import DocSnippets.Proofs.Snippet.Localization
import DocSnippets.Proofs.Markdown.Continuation
import DocSnippets.Proofs.Markdown.Exclusion
import DocSnippets.Proofs.Snippet.Search
import DocSnippets.Proofs.Snippet.Comments
import DocSnippets.Proofs.Package.Layout
import DocSnippets.Proofs.Snippet.Containment
import DocSnippets.Proofs.Diagnostic.Clean
import DocSnippets.Proofs.Diagnostic.Summary
import DocSnippets.Proofs.Snippet.Isolation
import DocSnippets.Proofs.CommandLine.Shown
import DocSnippets.Proofs.Compiler.ProjectRead
import DocSnippets.Proofs.Compiler.Ancestor
import DocSnippets.Proofs.Package.Nearest
import DocSnippets.Proofs.CommandLine.Distinct
import DocSnippets.Proofs.CommandLine.Relative
import DocSnippets.Proofs.Run.Calls
import DocSnippets.Proofs.Package.Declaration
import DocSnippets.Proofs.Diagnostic.Offsets
import DocSnippets.Proofs.Package.Captures
