import CollectedSources.Renames.RawLine
import CollectedSources.Renames.Similarity
import CollectedSources.Renames.Views
import CollectedSources.AsmFilter.Literals
import CollectedSources.Holder.Ownership
import CollectedSources.Variants.Search
import CollectedSources.Kfifo.Test
import CollectedSources.Lgap.Integrity
import CollectedSources.Diasel.Screen
import CollectedSources.Diasel.Frequencies
import CollectedSources.Antlr.Walker
import CollectedSources.Irqsim.Cleanup
import CollectedSources.Ir.Decoding
import CollectedSources.RemoteTuner.Commands
import CollectedSources.Mp.Interpreter
import CollectedSources.VreckoFf.Linux
import CollectedSources.VreckoFf.Axes
import CollectedSources.VreckoFf.AddEffect
import CollectedSources.Stopky.Timer
import CollectedSources.Slirp.Internet
import CollectedSources.Piskvor.Edges
import CollectedSources.Piskvor.Input
import CollectedSources.Projekt.Letters
import CollectedSources.Gon.Scalbn
import CollectedSources.Tty.LoopRw
import CollectedSources.Acpi.Traversal
import CollectedSources.Acpi.Dump
import CollectedSources.Pic.Idt
import CollectedSources.PcmAnal.Delivery
import CollectedSources.SndFft.Graph
import CollectedSources.Jobclient.Tokens
import CollectedSources.Barvy.Colors
import CollectedSources.Prumvek.Average
import CollectedSources.Server.Service
import CollectedSources.CondWait.Rendezvous
